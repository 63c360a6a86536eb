import Sword.Transforms.Clone

/-!
# The pass preserves what a program does

One thread runs a linked program before the pass and after it.  A cloned function costs a few
steps more: the thread enters the function, looks at the nesting level, and calls the clone or
goes on with the old entry block; when the clone returns, so does the function.

* `Frame.At` — an invocation is inside a function of the program.
* `Stacks` — the stack of the thread before the pass and after it.
* `Matched` — a step before the pass, and the steps after it that belong to it.
* `respects_noting`, `respects_ordinary` — the simulation, with the notes and without.
* `eval_runPass` — the program with its notes, and the program after the pass.
* `eval_runPass_erase` — the program as it was, and the program after the pass.
-/

namespace Sword
namespace Transforms

open Rtl StateTransition

/-! ## A kept instruction -/

/-- The calls in front of a plain access. -/
theorem callbacks_loadOrStore (args : List ℕ) (vals : List Value) (callerpc : UInt64)
    (isWrite : Bool) {bytes align : ℕ} (i : Instr)
    (h : getMemoryAccessFuncIndex bytes = none ∨ alignedAccess bytes align = true) :
    (instrumentLoadOrStore isWrite bytes align i).calls.mapM
        (RuntimeCall.callback args vals callerpc) =
      some (((getMemoryAccessFuncIndex bytes).map fun asize =>
        Callback.access asize (if isWrite then .unsafeWrite else .unsafeRead)
          (UInt64.ofNat (i.ptr.eval args vals)) callerpc).toList) := by
  unfold instrumentLoadOrStore
  cases hidx : getMemoryAccessFuncIndex bytes with
  | none => rfl
  | some idx =>
    have haligned : alignedAccess bytes align = true := h.resolve_left (by simp [hidx])
    cases isWrite <;> simp only [haligned] <;> rfl

/-- The calls in front of a kept instruction are its note. -/
theorem callbacks_instrument (args : List ℕ) (vals : List Value) (callerpc : UInt64) {i : Instr}
    (h : i.op.Kept) :
    (instrument i).calls.mapM (RuntimeCall.callback args vals callerpc) =
      some ((i.op.logged.map fun (asize, atype) => Callback.access asize atype
        (UInt64.ofNat (i.ptr.eval args vals)) callerpc).toList) := by
  obtain ⟨op, ptr, val, new⟩ := i
  cases op with
  | load bytes align atomic chosen =>
    by_cases hatomic : isAtomic (.load bytes align atomic chosen) = true
    · have hidx : getMemoryAccessFuncIndex bytes = none := by
        simpa [Op.Kept, hatomic] using h
      cases chosen <;> simp_all [instrument, instrumentAtomic, Op.logged, isAtomic]
    · rw [Bool.not_eq_true] at hatomic
      cases chosen with
      | false => simp [instrument, hatomic, Op.logged]
      | true =>
        have hkept := h.imp_right fun h => h.2.resolve_left Bool.noConfusion
        rw [instrument, if_neg (by simp [hatomic])]
        dsimp only
        rw [callbacks_loadOrStore args vals callerpc false _ hkept]
        simp [Op.logged, hatomic, Function.comp_def]
  | store bytes align atomic chosen =>
    by_cases hatomic : isAtomic (.store bytes align atomic chosen) = true
    · have hidx : getMemoryAccessFuncIndex bytes = none := by
        simpa [Op.Kept, hatomic] using h
      cases chosen <;> simp_all [instrument, instrumentAtomic, Op.logged, isAtomic]
    · rw [Bool.not_eq_true] at hatomic
      cases chosen with
      | false => simp [instrument, hatomic, Op.logged]
      | true =>
        have hkept := h.imp_right fun h => h.2.resolve_left Bool.noConfusion
        rw [instrument, if_neg (by simp [hatomic])]
        dsimp only
        rw [callbacks_loadOrStore args vals callerpc true _ hkept]
        simp [Op.logged, hatomic, Function.comp_def]
  | atomicRMW operation bytes ordering =>
    rw [instrument_of_isAtomic rfl]
    rcases h with h | h
    · simp [instrumentAtomic, h, Op.logged]
    · cases hidx : getMemoryAccessFuncIndex bytes with
      | none => simp [instrumentAtomic, hidx, Op.logged]
      | some idx =>
        simp only [List.mem_cons, List.not_mem_nil, or_false] at h
        rcases h with rfl | rfl | rfl | rfl <;>
          simp [instrumentAtomic, hidx, Op.logged, swordAtomicRMW]
  | cmpxchg bytes success failure =>
    have hidx : getMemoryAccessFuncIndex bytes = none := h
    rw [instrument_of_isAtomic rfl]
    simp [instrumentAtomic, hidx, Op.logged]
  | fence ordering scope => exact h.elim

/-- A kept instruction does the same after the pass, with its note. -/
theorem run_instrument (fr : Frame) (env : Environment) (mem : Memory) {i : Instr}
    (h : i.op.Kept) :
    (instrument i).run fr.args env mem fr.vals =
      some (fr.note env i, i.exec fr.args mem fr.vals) := by
  have htransparent := transparent_instrument h
  rw [Slot.run, callbacks_instrument fr.args fr.vals _ h, htransparent.original,
    htransparent.uses]
  rfl

/-! ## Invocations of a linked program -/

/-- The invocation is inside a function of the program. -/
structure Frame.At (P : Program) (fr : Frame) : Prop where
  func : fr.func ∈ P.all
  block : ∃ b ∈ fr.func.entry :: fr.func.blocks, fr.rest <:+ b.code ∧ fr.term = b.term

variable {P T : Program} {fr fr' : Frame} {policy : Func → Int → Bool}

/-- It has gone on in its block. -/
theorem Frame.At.of_suffix (h : fr.At P) (hfunc : fr'.func = fr.func)
    (hrest : fr'.rest <:+ fr.rest) (hterm : fr'.term = fr.term) : fr'.At P := by
  obtain ⟨hmem, b, hb, hcode, hend⟩ := h
  refine ⟨hfunc ▸ hmem, b, ?_, hrest.trans hcode, hterm.trans hend⟩
  rw [hfunc]
  exact hb

theorem Frame.At.push (h : fr.At P) {step : Step} {rest : List Step}
    (hrest : fr.rest = step :: rest) (v : Value) : (fr.push v rest).At P := by
  refine h.of_suffix rfl ?_ rfl
  rw [hrest]
  exact List.suffix_cons step rest

theorem Frame.At.wait (h : fr.At P) {step : Step} {rest : List Step}
    (hrest : fr.rest = step :: rest) : (fr.wait rest).At P := by
  refine h.of_suffix rfl ?_ rfl
  rw [hrest]
  exact List.suffix_cons step rest

/-- It calls, and its caller is where it was. -/
theorem at_enter {f : Func} (hf : f ∈ P.all) (args : List ℕ) (status : Int) :
    (enter policy f args status).At P :=
  ⟨hf, f.entry, List.mem_cons_self, List.suffix_refl _, rfl⟩

/-- Branches lead somewhere. -/
theorem Frame.At.goto (h : fr.At P) {l : ℕ} (hl : l ∈ fr.term.targets) (os : List Operand) :
    ∃ b ∈ fr.func.blocks, fr.func.blocks[l]? = some b ∧
      Frame.At P { fr with
        label := some l, args := fr.eval os, vals := [], rest := b.code, term := b.term } := by
  obtain ⟨hmem, b, hb, -, hterm⟩ := h
  rw [hterm] at hl
  have hlt := fr.func.targets_lt b hb l hl
  have hblock : fr.func.blocks[l] ∈ fr.func.blocks := List.getElem_mem hlt
  exact ⟨_, hblock, List.getElem?_eq_getElem hlt, hmem, _, List.mem_cons_of_mem _ hblock,
    List.suffix_refl _, rfl⟩

/-- The instructions ahead are those of the front end. -/
theorem Frame.At.emitted (h : fr.At P) (hP : P.Linked) {step : Step} (hstep : step ∈ fr.rest) :
    step.Emitted := by
  obtain ⟨hmem, b, hb, hcode, -⟩ := h
  exact hP.emitted _ hmem b hb step (hcode.subset hstep)

/-- The functions that are called are defined. -/
theorem Frame.At.defined (h : fr.At P) (hP : P.Linked) {callee : String} {os : List Operand}
    (hstep : Step.call callee os ∈ fr.rest) : ∃ f, P.lookup callee = some f := by
  obtain ⟨hmem, b, hb, hcode, -⟩ := h
  exact exists_lookup hP.nodup (hP.defined _ hmem b hb callee os (hcode.subset hstep))

/-- The pass keeps the instructions ahead. -/
theorem Frame.At.kept (h : fr.At P) (hK : P.Kept) (hi : P.Instrumented fr.func) {i : Instr}
    (hstep : Step.instr i ∈ fr.rest) : i.op.Kept := by
  obtain ⟨-, b, hb, hcode, -⟩ := h
  exact hK _ hi b hb i (hcode.subset hstep)

/-- A function of type `void` returns no value. -/
theorem Frame.At.ret_void (h : fr.At P) (hvoid : fr.func.returnsVoid = true) {v : Option Operand}
    (hv : fr.term = .ret v) : v = none := by
  obtain ⟨-, b, hb, -, hterm⟩ := h
  exact fr.func.ret_void hvoid b hb v (hterm.symm.trans hv)

/-! ## The stack after the pass -/

/-- The invocation, in the instrumented function. -/
def Frame.rewrite (fr : Frame) : Frame :=
  { fr with
    func := fr.func.rewrite fr.func.notedBy
    rest := fr.rest.map Step.rewrite
    logs := false }

/-- The invocation, in a function that has all blocks of its function. -/
def Frame.within (fr : Frame) (g : Func) (l : Option ℕ) : Frame :=
  { fr with func := g, label := l }

/-- The invocation of a function that waits for its clone. -/
def dispatching (f : Func) (args : List ℕ) : Frame :=
  { func := f.dispatcher
    label := some (f.blocks.length + 1)
    args := args
    rest := []
    term := f.thenBlock.term
    logs := false }

/-- What is below the invocation of an instrumented function. -/
inductive Waiting (f : Func) : List Frame → Prop
  | inPlace : Waiting f []
  | clone (args : List ℕ) : Waiting f [dispatching f args]

/-- The stack before the pass, with its notes, and the stack after it. -/
inductive Stacks (P : Program) : List Frame → List Frame → Prop
  | nil : Stacks P [] []
  | plain {fr : Frame} {g : Func} {l : Option ℕ} {st st' : List Frame} (h : fr.At P)
      (hlogs : fr.logs = false) (hg : fr.func.blocks <+: g.blocks) (hst : Stacks P st st') :
      Stacks P (fr :: st) (fr.within g l :: st')
  | noting {fr : Frame} {w st st' : List Frame} (h : fr.At P) (hlogs : fr.logs = true)
      (hi : P.Instrumented fr.func) (hw : Waiting fr.func w) (hst : Stacks P st st') :
      Stacks P (fr :: st) (fr.rewrite :: (w ++ st'))

/-- The states of the thread before the pass and after it. -/
structure Related (P : Program) (s t : State) : Prop where
  stack : Stacks P s.stack t.stack
  mem : t.mem = s.mem
  trace : t.trace = s.trace
  ret : t.ret = s.ret

/-- A program as it is. -/
def ordinary (P : Program) (place : String → Option ℕ → Environment) : State → Option State :=
  next P unlogged fun f => place f.name

/-- A program before the pass, with a note of each access that the tool is to see, from the
place of the code that makes the note after the pass. -/
def noting (P : Program) (place : String → Option ℕ → Environment) : State → Option State :=
  next P P.logs fun f => place f.notedBy

variable {place : String → Option ℕ → Environment} {st st' : List Frame} {s t : State}

theorem Stacks.innermost {stack : List Frame} (h : Stacks P (fr :: st) stack) : fr.At P := by
  cases h with
  | plain h => exact h
  | noting h => exact h

/-- The innermost invocation gets the value of its call. -/
theorem Stacks.value {c : Frame} {stack : List Frame} (h : Stacks P (c :: st) stack) (v : Value) :
    ∃ c' st', stack = c' :: st' ∧
      Stacks P (c.push v c.rest :: st) (c'.push v c'.rest :: st') := by
  cases h with
  | plain h hlogs hg hst =>
    exact ⟨_, _, rfl, Stacks.plain (h.of_suffix rfl (List.suffix_refl _) rfl) hlogs hg hst⟩
  | noting h hlogs hi hw hst =>
    exact ⟨_, _, rfl, Stacks.noting (h.of_suffix rfl (List.suffix_refl _) rfl) hlogs hi hw hst⟩

/-- An invocation is over, before the pass and after it. -/
theorem Stacks.leave (h : Stacks P st st') (r : ℕ) (hmem : t.mem = s.mem)
    (htrace : t.trace = s.trace) (hret : t.ret = s.ret) :
    Related P (s.leave r st) (t.leave r st') := by
  cases st with
  | nil =>
    cases h
    exact ⟨Stacks.nil, hmem, htrace, rfl⟩
  | cons c st =>
    obtain ⟨c', st', rfl, hvalue⟩ := h.value { old := r }
    exact ⟨hvalue, hmem, htrace, hret⟩

/-- When a clone is over, so is the function that called it. -/
theorem Waiting.reaches {f : Func} {w : List Frame} (h : Waiting f w) {r : ℕ}
    (hr : f.returnsVoid = true → r = 0) (t : State) (st' : List Frame) :
    Reaches (ordinary T place) (t.leave r (w ++ st')) (t.leave r st') := by
  cases h with
  | inPlace => exact Machine.Reaches.refl _
  | clone args =>
    refine Machine.Reaches.of_step ?_
    have hval : ((if f.returnsVoid then none else some (Operand.result 0)).map
        (Operand.eval args [{ old := r }])).getD 0 = r := by
      cases hvoid : f.returnsVoid with
      | false => rfl
      | true => exact (hr hvoid).symm
    cases st' <;>
      simp [ordinary, next, State.leave, dispatching, Func.thenBlock, Frame.push, hval]

/-! ## A call -/

theorem bound_bound (f : Func) (args : List ℕ) : f.bound (f.bound args) = f.bound args := by
  refine List.map_congr_left fun i hi => ?_
  simp [Func.bound, List.getD_eq_getElem?_getD, List.mem_range.1 hi]

@[simp] theorem bound_rewrite (f : Func) (name : String) : (f.rewrite name).bound = f.bound := rfl

@[simp] theorem bound_dispatcher (f : Func) : f.dispatcher.bound = f.bound := rfl

/-- The parameters, handed on. -/
theorem eval_params (f : Func) (args : List ℕ) (vals : List Value) :
    f.params.map (Operand.eval (f.bound args) vals) = f.bound args := by
  rw [Func.params, List.map_map]
  exact bound_bound f args

/-- A clone is called with the arguments of its function. -/
theorem enter_clone (f : Func) (hplace : f.inPlace = false) (args : List ℕ) (status : Int) :
    enter unlogged (f.rewrite f.cloneName) (f.bound args) status =
      (enter policy f args status).rewrite := by
  have hnoted : f.notedBy = f.cloneName := by simp [Func.notedBy, hplace]
  simp only [enter, bound_rewrite, bound_bound, Frame.rewrite, hnoted]
  rfl

/-- A function that has been cloned looks at the nesting level. -/
theorem next_dispatcher (f : Func) (args : List ℕ) (s : State) :
    ordinary T place
        { s with stack := enter unlogged f.dispatcher args (status s.trace) :: st } =
      some { s with
        stack := (enter unlogged f.dispatcher args (status s.trace)).push
          { success := decide (status s.trace = 1) } [] :: st } := rfl

/-- At level 1 it calls the clone. -/
theorem reaches_clone {f : Func} (hclone : T.lookup f.cloneName = some (f.rewrite f.cloneName))
    (hplace : f.inPlace = false) (args : List ℕ) (hs : status s.trace = 1) :
    Reaches (ordinary T place)
      { s with stack := enter unlogged f.dispatcher args (status s.trace) :: st }
      { s with
        stack := (enter policy f args (status s.trace)).rewrite ::
          dispatching f (f.bound args) :: st } := by
  refine Machine.Reaches.step_trans (next_dispatcher f args s) ?_
  refine Machine.Reaches.step_trans (t := { s with
    stack := { dispatching f (f.bound args) with rest := f.thenBlock.code } :: st }) ?_ ?_
  · simp [ordinary, next, enter, Frame.push, Frame.goto, Frame.eval, dispatching, hs]
    simp [Func.dispatcher, Func.testBlock, eval_params, Operand.eval]
  · refine Machine.Reaches.of_step ?_
    rw [← enter_clone f hplace]
    simp [ordinary, next, Func.thenBlock, dispatching, hclone, Frame.wait, Frame.eval,
      eval_params]

/-- At other levels it goes on with the old entry block. -/
theorem reaches_body (f : Func) (args : List ℕ) (hs : status s.trace ≠ 1) :
    Reaches (ordinary T place)
      { s with stack := enter unlogged f.dispatcher args (status s.trace) :: st }
      { s with
        stack := (enter unlogged f args (status s.trace)).within f.dispatcher
          (some f.blocks.length) :: st } := by
  refine Machine.Reaches.step_trans (next_dispatcher f args s) (Machine.Reaches.of_step ?_)
  simp [ordinary, next, enter, Frame.push, Frame.goto, Frame.eval, Frame.within, hs]
  simp [Func.dispatcher, Func.testBlock, eval_params, Operand.eval]

theorem enter_of_not_policy {f : Func} {status : Int} (h : policy f status = false)
    (args : List ℕ) : enter policy f args status = enter unlogged f args status := by
  rw [enter, enter, h, unlogged_apply]

/-- **A function is called**, before the pass and after it. -/
theorem reaches_enter (place : String → Option ℕ → Environment) (hP : P.Linked)
    (hT : P.runPass = some T) {f : Func} {callee : String} (hf : P.lookup callee = some f)
    (hst : Stacks P st st') (args : List ℕ) (s : State) :
    ∃ g, T.lookup callee = some g ∧
      ∃ stack, Stacks P (enter P.logs f args (status s.trace) :: st) stack ∧
        Reaches (ordinary T place)
          { s with stack := enter unlogged g args (status s.trace) :: st' }
          { s with stack := stack } := by
  obtain ⟨hmem, rfl⟩ := (lookup_eq_some_iff hP.nodup).1 hf
  have hat : (enter P.logs f args (status s.trace)).At P := at_enter hmem args _
  rcases lookup_runPass hP hT hf with ⟨hlook, hlogs⟩ | ⟨hi, hplace, hlook, hlogs⟩ |
    ⟨hi, hplace, hlook, hclone, hlogs⟩
  · refine ⟨f, hlook, _, Stacks.plain (g := f) (l := none) hat (hlogs _) (List.prefix_refl _) hst,
      ?_⟩
    rw [enter_of_not_policy (hlogs _)]
    exact Machine.Reaches.refl _
  · refine ⟨_, hlook, _, Stacks.noting hat (hlogs _) hi Waiting.inPlace hst, ?_⟩
    have hnoted : f.notedBy = f.name := by simp [Func.notedBy, hplace]
    rw [← hnoted]
    exact Machine.Reaches.refl _
  · refine ⟨_, hlook, ?_⟩
    by_cases hs : status s.trace = 1
    · exact ⟨_, Stacks.noting hat (by simp [enter, hlogs, hs]) hi (Waiting.clone (f.bound args))
        hst, reaches_clone hclone hplace args hs⟩
    · have hplain : P.logs f (status s.trace) = false := by simp [hlogs, hs]
      refine ⟨_, Stacks.plain (g := f.dispatcher) (l := some f.blocks.length) hat hplain
        (List.prefix_append _ _) hst, ?_⟩
      rw [enter_of_not_policy hplain]
      exact reaches_body f args hs

/-! ## The simulation -/

/-- The thread takes a step before the pass, and some steps after it. -/
def Matched (P T : Program) (place : String → Option ℕ → Environment) (s t : State) : Prop :=
  ∃ s', noting P place s = some s' ∧ ∃ t', Related P s' t' ∧ Reaches₁ (ordinary T place) t t'

theorem Matched.single (s' t' : State) (hs : noting P place s = some s')
    (ht : ordinary T place t = some t') (h : Related P s' t') : Matched P T place s t :=
  ⟨s', hs, t', h, Relation.TransGen.single ht⟩

/-- The same place in two functions. -/
structure Frame.Agrees (fr c : Frame) : Prop where
  args : c.args = fr.args
  vals : c.vals = fr.vals
  term : c.term = fr.term

theorem agrees_within (g : Func) (l : Option ℕ) : fr.Agrees (fr.within g l) := ⟨rfl, rfl, rfl⟩

theorem agrees_rewrite : fr.Agrees fr.rewrite := ⟨rfl, rfl, rfl⟩

variable {c : Frame}

/-- A call, in a function of either kind. -/
theorem Matched.call (hP : P.Linked) (hT : P.runPass = some T) (hagrees : fr.Agrees c)
    {callee : String} {os : List Operand} {rest rest' : List Step} (h : fr.At P)
    (hrest : fr.rest = .call callee os :: rest) (hrest' : c.rest = .call callee os :: rest')
    (hst : Stacks P (fr.wait rest :: st) (c.wait rest' :: st')) (s : State) :
    Matched P T place { s with stack := fr :: st } { s with stack := c :: st' } := by
  have hmem : Step.call callee os ∈ fr.rest := by simp [hrest]
  obtain ⟨f, hf⟩ := h.defined hP hmem
  have heval : c.eval os = fr.eval os := by rw [Frame.eval, hagrees.args, hagrees.vals, Frame.eval]
  obtain ⟨g, hg, stack, hstack, hreach⟩ := reaches_enter place hP hT hf hst (fr.eval os) s
  refine ⟨{ s with stack := enter P.logs f (fr.eval os) (status s.trace) :: fr.wait rest :: st },
    by simp [noting, next, hrest, hf], { s with stack := stack }, ⟨hstack, rfl, rfl, rfl⟩, ?_⟩
  refine Relation.TransGen.head' ?_ hreach
  simp [ordinary, next, hrest', hg, heval]

/-- A callback, in a function of either kind. -/
theorem Matched.notify {rest rest' : List Step} {e : {e : Callback // isAccessCall e = false}}
    (hrest : fr.rest = .notify e :: rest) (hrest' : c.rest = .notify e :: rest')
    (hst : Stacks P (fr.push {} rest :: st) (c.push {} rest' :: st')) (s : State) :
    Matched P T place { s with stack := fr :: st } { s with stack := c :: st' } :=
  Matched.single { s with stack := fr.push {} rest :: st, trace := s.trace ++ [e.1] }
    { s with stack := c.push {} rest' :: st', trace := s.trace ++ [e.1] }
    (by simp [noting, next, hrest]) (by simp [ordinary, next, hrest']) ⟨hst, rfl, rfl, rfl⟩

/-- A branch, in a function of either kind. -/
theorem Matched.goto (hagrees : fr.Agrees c) (hrest : fr.rest = []) (hrest' : c.rest = [])
    (hst : ∀ l ∈ fr.term.targets, ∀ os, ∃ dest, fr.goto l os = some dest ∧
      ∃ dest', c.goto l os = some dest' ∧ Stacks P (dest :: st) (dest' :: st'))
    (hret : ∀ v, fr.term ≠ .ret v) (s : State) :
    Matched P T place { s with stack := fr :: st } { s with stack := c :: st' } := by
  obtain ⟨hargs, hvals, hterm⟩ := hagrees
  have taken : ∀ l ∈ fr.term.targets, ∀ os,
      noting P place { s with stack := fr :: st } =
        (fr.goto l os).map (fun dest => { s with stack := dest :: st }) →
      ordinary T place { s with stack := c :: st' } =
        (c.goto l os).map (fun dest => { s with stack := dest :: st' }) →
      Matched P T place { s with stack := fr :: st } { s with stack := c :: st' } := by
    intro l hl os hs ht
    obtain ⟨dest, hdest, dest', hdest', hst⟩ := hst l hl os
    rw [hdest, Option.map_some] at hs
    rw [hdest', Option.map_some] at ht
    exact Matched.single _ _ hs ht ⟨hst, rfl, rfl, rfl⟩
  cases hfr : fr.term with
  | ret v => exact absurd hfr (hret v)
  | br l os =>
    refine taken l (by simp [hfr, Terminator.targets]) os ?_ ?_
    · simp [noting, next, hrest, hfr]
    · simp [ordinary, next, hrest', hterm, hfr]
  | condBr cond l os l' os' =>
    by_cases hcond : cond.eval fr.args fr.vals = 0
    · refine taken l' (by simp [hfr, Terminator.targets]) os' ?_ ?_
      · simp [noting, next, hrest, hfr, hcond]
      · simp [ordinary, next, hrest', hterm, hfr, hargs, hvals, hcond]
    · refine taken l (by simp [hfr, Terminator.targets]) os ?_ ?_
      · simp [noting, next, hrest, hfr, hcond]
      · simp [ordinary, next, hrest', hterm, hfr, hargs, hvals, hcond]

/-- An invocation that is not instrumented. -/
theorem matched_plain (hP : P.Linked) (hT : P.runPass = some T) {g : Func} {l : Option ℕ}
    (h : fr.At P) (hlogs : fr.logs = false) (hg : fr.func.blocks <+: g.blocks)
    (hst : Stacks P st st') (s : State) :
    Matched P T place { s with stack := fr :: st } { s with stack := fr.within g l :: st' } := by
  cases hrest : fr.rest with
  | nil =>
    by_cases hret : ∃ v, fr.term = .ret v
    · obtain ⟨v, hterm⟩ := hret
      refine Matched.single (s.leave ((v.map (Operand.eval fr.args fr.vals)).getD 0) st)
        (s.leave ((v.map (Operand.eval fr.args fr.vals)).getD 0) st') ?_ ?_
        (hst.leave _ rfl rfl rfl)
      · cases st <;> simp [noting, next, hrest, hterm, State.leave]
      · cases st' <;> simp [ordinary, next, Frame.within, hrest, hterm, State.leave]
    · refine Matched.goto (agrees_within g l) hrest hrest ?_ (fun v hv => hret ⟨v, hv⟩) s
      intro l' hl' os
      obtain ⟨b, -, hb, hat⟩ := h.goto hl' os
      have hgb : g.blocks[l']? = some b := by
        obtain ⟨more, hmore⟩ := hg
        rw [← hmore, List.getElem?_append_left (List.getElem?_eq_some_iff.1 hb).1, hb]
      refine ⟨_, by rw [Frame.goto, hb, Option.map_some], _,
        by rw [Frame.goto, Frame.within, hgb, Option.map_some], ?_⟩
      exact Stacks.plain hat hlogs hg hst
  | cons step rest =>
    cases step with
    | instr i =>
      refine Matched.single { s with
          stack := fr.push (i.exec fr.args s.mem fr.vals).2 rest :: st
          mem := (i.exec fr.args s.mem fr.vals).1 }
        { s with
          stack := (fr.push (i.exec fr.args s.mem fr.vals).2 rest).within g l :: st'
          mem := (i.exec fr.args s.mem fr.vals).1 } ?_ ?_
        ⟨Stacks.plain (h.push hrest _) hlogs hg hst, rfl, rfl, rfl⟩
      · simp [noting, next, hrest, hlogs]
      · simp [ordinary, next, Frame.within, Frame.push, hrest, hlogs]
    | call callee os =>
      exact Matched.call hP hT (agrees_within g l) h hrest hrest
        (Stacks.plain (h.wait hrest) hlogs hg hst) s
    | notify e =>
      exact Matched.notify (c := fr.within g l) hrest hrest
        (Stacks.plain (h.push hrest _) hlogs hg hst) s
    | slot slot =>
      have hmem : Step.slot slot ∈ fr.rest := by simp [hrest]
      exact (h.emitted hP hmem).elim
    | testStatus =>
      have hmem : Step.testStatus ∈ fr.rest := by simp [hrest]
      exact (h.emitted hP hmem).elim

/-- An invocation of an instrumented function. -/
theorem matched_noting (hP : P.Linked) (hK : P.Kept) (hT : P.runPass = some T) {w : List Frame}
    (h : fr.At P) (hlogs : fr.logs = true) (hi : P.Instrumented fr.func)
    (hw : Waiting fr.func w) (hst : Stacks P st st') (s : State) :
    Matched P T place { s with stack := fr :: st }
      { s with stack := fr.rewrite :: (w ++ st') } := by
  cases hrest : fr.rest with
  | nil =>
    have hrest' : fr.rewrite.rest = [] := by simp [Frame.rewrite, hrest]
    by_cases hret : ∃ v, fr.term = .ret v
    · obtain ⟨v, hterm⟩ := hret
      have hvoid : fr.func.returnsVoid = true →
          (v.map (Operand.eval fr.args fr.vals)).getD 0 = 0 := by
        intro hvoid
        rw [h.ret_void hvoid hterm]
        rfl
      refine ⟨s.leave ((v.map (Operand.eval fr.args fr.vals)).getD 0) st, ?_,
        s.leave ((v.map (Operand.eval fr.args fr.vals)).getD 0) st',
        hst.leave _ rfl rfl rfl, Relation.TransGen.head' ?_ (hw.reaches hvoid s st')⟩
      · cases st <;> simp [noting, next, hrest, hterm, State.leave]
      · cases w ++ st' <;>
          simp [ordinary, next, Frame.rewrite, hrest, hterm, State.leave]
    · refine Matched.goto agrees_rewrite hrest hrest' ?_ (fun v hv => hret ⟨v, hv⟩) s
      intro l' hl' os
      obtain ⟨b, -, hb, hat⟩ := h.goto hl' os
      have hgb : (fr.func.rewrite fr.func.notedBy).blocks[l']? = some b.rewrite := by
        simp [Func.rewrite, hb]
      refine ⟨_, by rw [Frame.goto, hb, Option.map_some], _,
        by rw [Frame.goto, Frame.rewrite, hgb, Option.map_some], ?_⟩
      exact Stacks.noting hat hlogs hi hw hst
  | cons step rest =>
    have hrest' : fr.rewrite.rest = step.rewrite :: rest.map Step.rewrite := by
      simp [Frame.rewrite, hrest]
    cases step with
    | instr i =>
      have hkept : i.op.Kept := h.kept hK hi (by simp [hrest])
      have hrun := run_instrument fr (place fr.func.notedBy fr.label) s.mem hkept
      refine Matched.single { s with
          stack := fr.push (i.exec fr.args s.mem fr.vals).2 rest :: st
          mem := (i.exec fr.args s.mem fr.vals).1
          trace := s.trace ++ fr.note (place fr.func.notedBy fr.label) i }
        { s with
          stack := (fr.push (i.exec fr.args s.mem fr.vals).2 rest).rewrite :: (w ++ st')
          mem := (i.exec fr.args s.mem fr.vals).1
          trace := s.trace ++ fr.note (place fr.func.notedBy fr.label) i } ?_ ?_
        ⟨Stacks.noting (h.push hrest _) hlogs hi hw hst, rfl, rfl, rfl⟩
      · simp [noting, next, hrest, hlogs]
      · have hname : fr.rewrite.func.name = fr.func.notedBy := rfl
        have hargs : fr.rewrite.args = fr.args := rfl
        have hvals : fr.rewrite.vals = fr.vals := rfl
        have hlabel : fr.rewrite.label = fr.label := rfl
        simp [ordinary, next, hrest', Step.rewrite, hname, hargs, hvals, hlabel, hrun]
        rfl
    | call callee os =>
      exact Matched.call hP hT agrees_rewrite h hrest hrest'
        (Stacks.noting (h.wait hrest) hlogs hi hw hst) s
    | notify e =>
      exact Matched.notify hrest hrest' (Stacks.noting (h.push hrest _) hlogs hi hw hst) s
    | slot slot =>
      have hmem : Step.slot slot ∈ fr.rest := by simp [hrest]
      exact (h.emitted hP hmem).elim
    | testStatus =>
      have hmem : Step.testStatus ∈ fr.rest := by simp [hrest]
      exact (h.emitted hP hmem).elim

theorem Related.step (place : String → Option ℕ → Environment) (hP : P.Linked) (hK : P.Kept)
    (hT : P.runPass = some T) (h : Related P s t) :
    (s.stack = [] ∧ t.stack = []) ∨ Matched P T place s t := by
  obtain ⟨stack, mem, trace, ret⟩ := s
  obtain ⟨stack', mem', trace', ret'⟩ := t
  obtain ⟨hstack, hmem, htrace, hret⟩ := h
  dsimp only at hstack hmem htrace hret
  subst hmem htrace hret
  cases hstack with
  | nil => exact Or.inl ⟨rfl, rfl⟩
  | plain h hlogs hg hst =>
    exact Or.inr (matched_plain hP hT h hlogs hg hst ⟨[], mem', trace', ret'⟩)
  | noting h hlogs hi hw hst =>
    exact Or.inr (matched_noting hP hK hT h hlogs hi hw hst ⟨[], mem', trace', ret'⟩)

/-- **The simulation**, by the steps of the program with its notes. -/
theorem respects_noting (place : String → Option ℕ → Environment) (hP : P.Linked)
    (hK : P.Kept) (hT : P.runPass = some T) :
    Respects (noting P place) (ordinary T place) (Related P) := by
  intro s t h
  rcases h.step place hP hK hT with ⟨hs, ht⟩ | ⟨s', hs, ht⟩
  · simp [noting, ordinary, next, hs, ht]
  · rw [hs]
    exact ht

/-- The thread has ended before the pass, and after it. -/
theorem Related.eq (hP : P.Linked) (hK : P.Kept) (hT : P.runPass = some T) (h : Related P s t)
    (hs : noting P place s = none) : s = t := by
  rcases h.step place hP hK hT with ⟨hsn, htn⟩ | ⟨s', hs', -⟩
  · obtain ⟨stack, mem, trace, ret⟩ := s
    obtain ⟨stack', mem', trace', ret'⟩ := t
    obtain ⟨-, hmem, htrace, hret⟩ := h
    simp_all
  · rw [hs] at hs'
    cases hs'

/-- The program without its notes makes the same steps. -/
theorem erase_next_ordinary (place place₀ : String → Option ℕ → Environment) (hP : P.Linked)
    (h : Related P s t) {u : State} (hu : u.erase = s.erase) :
    (ordinary P place₀ u).map State.erase = (noting P place s).map State.erase := by
  have hslot : ∀ fr callers, s.stack = fr :: callers → ∀ slot rest,
      fr.rest ≠ .slot slot :: rest := by
    intro fr callers hs slot rest hrest
    have hat : fr.At P := (hs ▸ h.stack).innermost
    have hmem : Step.slot slot ∈ fr.rest := by simp [hrest]
    exact hat.emitted hP hmem
  rw [ordinary, ← next_erase, hu, next_place hslot, next_erase, noting]

/-- **The simulation**, by the steps of the program as it was. -/
theorem respects_ordinary {place₀ : String → Option ℕ → Environment} (hP : P.Linked)
    (hK : P.Kept) (hT : P.runPass = some T) :
    Respects (ordinary P place₀) (ordinary T place)
      fun u t => ∃ s, u.erase = s.erase ∧ Related P s t := by
  rintro u t ⟨s, hu, h⟩
  have hnext := erase_next_ordinary place place₀ hP h hu
  have hresp := respects_noting place hP hK hT h
  cases hs : noting P place s with
  | none =>
    rw [hs, Option.map_none, Option.map_eq_none_iff] at hnext
    rw [hs] at hresp
    rw [hnext]
    exact hresp
  | some s' =>
    rw [hs, Option.map_some, Option.map_eq_some_iff] at hnext
    rw [hs] at hresp
    obtain ⟨u', hu', herase⟩ := hnext
    obtain ⟨t', hrelated, hreach⟩ := hresp
    rw [hu']
    exact ⟨t', ⟨s', herase, hrelated⟩, hreach⟩

/-! ## Whole runs -/

/-- A thread that begins in a function of a library, such as the startup code or a worker of
the OpenMP runtime. -/
def start (f : Func) (args : List ℕ) (mem : Memory) (trace : List Callback) : State :=
  { stack := [enter unlogged f args (status trace)], mem := mem, trace := trace }

theorem related_start {f : Func} (hf : f ∈ P.library) (args : List ℕ) (mem : Memory)
    (trace : List Callback) : Related P (start f args mem trace) (start f args mem trace) :=
  ⟨Stacks.plain (g := f) (l := none) (at_enter (List.mem_append_right _ hf) _ _) rfl
    (List.prefix_refl _) Stacks.nil, rfl, rfl, rfl⟩

/-- A unit with an outlined region and a function that sets a number to 1 and returns what it
was, and a worker of the OpenMP runtime, which runs the region. -/
def sample : Program where
  functions := [
    { name := ".omp_outlined."
      arity := 1
      returnsVoid := true
      entry := ⟨[.instr ⟨.load 4 4 none true, .arg 0, .const 0, .const 0⟩,
        .call "work" [.arg 0]], .ret none⟩
      targets_lt := by simp [Terminator.targets]
      ret_void := by simp },
    { name := "work"
      arity := 1
      entry := ⟨[.instr ⟨.load 4 4 none false, .arg 0, .const 0, .const 0⟩,
        .instr ⟨.store 4 4 none true, .arg 0, .const 1, .const 0⟩], .ret (some (.result 0))⟩
      targets_lt := by simp [Terminator.targets]
      ret_void := by simp }]
  library := [
    { name := "__kmp_launch_worker"
      arity := 1
      entry := ⟨[.notify ⟨.implicitTaskBegin ⟨0, 1, 0, 1, 0, 2⟩ 2 1, rfl⟩,
        .call ".omp_outlined." [.arg 0], .notify ⟨.implicitTaskEnd, rfl⟩], .ret none⟩
      targets_lt := by simp [Terminator.targets]
      ret_void := by simp }]

theorem sample_linked : sample.Linked where
  nodup := by decide
  clone_new := by decide
  emitted := by simp [sample, Program.all, Step.Emitted]
  defined := by simp [sample, Program.all, Program.names]

theorem sample_kept : sample.Kept := by
  simp [Program.Kept, Program.Instrumented, sample, Op.Kept, isAtomic, alignedAccess]

/-- The return addresses are numbered within each block. -/
def samplePlace : String → Option ℕ → Environment := fun _ _ => ⟨fun k => k.toUInt64, fun _ => 0⟩

/-- **What the tool sees.**  In a linked program of kept instructions the code after the pass ends
if the code before it does, with the same memory and the same result.  It has called the tool for
exactly those accesses, in their order, that are made in the outlined regions and in the
invocations of instrumented functions that began at level 1. -/
theorem eval_runPass (hP : P.Linked) (hK : P.Kept) (hT : P.runPass = some T) {f : Func}
    (hf : f ∈ P.library) (place : String → Option ℕ → Environment) (args : List ℕ)
    (mem : Memory) (trace : List Callback) :
    eval (ordinary T place) (start f args mem trace) =
      eval (noting P place) (start f args mem trace) := by
  have heval : (eval (ordinary T place) (start f args mem trace)).map id =
      (eval (noting P place) (start f args mem trace)).map id :=
    Machine.map_eval_eq (respects_noting place hP hK hT) (fun s t h hs => h.eq hP hK hT hs)
      (related_start hf args mem trace)
  rwa [Part.map_id', Part.map_id'] at heval <;> exact fun _ => rfl

/-- The load of the sample's region is noted, and the store of the function it calls; the load
before the store is not chosen. -/
theorem eval_runPass_sample : ∃ T worker, sample.runPass = some T ∧ worker ∈ sample.library ∧
    eval (ordinary T samplePlace) (start worker [4096] (fun _ => 7) []) =
      eval (noting sample samplePlace) (start worker [4096] (fun _ => 7) []) ∧
    ∃ s ∈ eval (ordinary T samplePlace) (start worker [4096] (fun _ => 7) []), s.trace =
      [.implicitTaskBegin ⟨0, 1, 0, 1, 0, 2⟩ 2 1, .access .size4 .unsafeRead 4096 0,
        .access .size4 .unsafeWrite 4096 1, .implicitTaskEnd] := by
  have heq := eval_runPass sample_linked sample_kept rfl List.mem_cons_self samplePlace [4096]
    (fun _ => 7) []
  refine ⟨_, _, rfl, List.mem_cons_self, heq, ?_⟩
  rw [heq]
  exact ⟨_, @Machine.mem_eval_of_run _ _ 20 _ _ rfl, rfl⟩

/-- **The pass preserves the meaning** of linked programs of kept instructions.  Whatever the
environment, the code after the pass ends if the code before it does, with the same memory and
the same result, and it has gone through the same callbacks of the OpenMP runtime. -/
theorem eval_runPass_erase (hP : P.Linked) (hK : P.Kept) (hT : P.runPass = some T) {f : Func}
    (hf : f ∈ P.library) (place place₀ : String → Option ℕ → Environment) (args : List ℕ)
    (mem : Memory) (trace : List Callback) :
    (eval (ordinary T place) (start f args mem trace)).map State.erase =
      (eval (ordinary P place₀) (start f args mem trace)).map State.erase := by
  refine Machine.map_eval_eq (respects_ordinary hP hK hT) ?_
    ⟨_, rfl, related_start hf args mem trace⟩
  rintro u t ⟨s, hu, h⟩ hnone
  have hnext := erase_next_ordinary place place₀ hP h hu
  rw [hnone, Option.map_none, eq_comm, Option.map_eq_none_iff] at hnext
  rw [hu, h.eq hP hK hT hnext]

theorem eval_runPass_erase_sample :
    ∃ T worker, sample.runPass = some T ∧ worker ∈ sample.library ∧
      (eval (ordinary T samplePlace) (start worker [4096] (fun _ => 7) [])).map State.erase =
        (eval (ordinary sample samplePlace) (start worker [4096] (fun _ => 7) [])).map
          State.erase :=
  ⟨_, _, rfl, List.mem_cons_self,
    eval_runPass_erase sample_linked sample_kept rfl List.mem_cons_self samplePlace samplePlace
      _ _ _⟩

end Transforms
end Sword
