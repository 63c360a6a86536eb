import Sword.Lib.Machine
import Sword.Rtl.Metafile
import Sword.Transforms.Instrument

/-!
# Programs of functions

Functions with blocks and calls, and what one thread does when it runs them.  A value that one
block passes to another is an argument of that block, so that the operands of an instruction
are those of a straight-line body; the entry block is apart from the others, since no branch
leads to it.

* `Func`, `Program` — the functions of the unit that is compiled, and those it is linked with.
* `Slot.run` — a rewritten instruction: the calls of the tool, memory, and the value.
* `State`, `next` — the stack of the thread, memory, and the calls into the tool so far; one
  step.
* `status_eq` — the nesting level as the tool computes it from these calls.
* `StateTransition.eval` of Mathlib runs a program until it ends.

A policy may say that the accesses of an invocation are noted among the calls of the tool,
although no code of the program makes them.  `next_erase`: this changes nothing else.
-/

namespace Sword
namespace Transforms

open Rtl

/-! ## Functions -/

/-- The instrumentation calls among the calls into the tool. -/
def isAccessCall : Callback → Bool
  | .access _ _ _ _ => true
  | _ => false

/-- An instruction of a block, before or after the pass.  Each has a value. -/
inductive Step
  | instr (i : Instr)
  | call (callee : String) (args : List Operand)
  /-- A callback, in a function of the OpenMP library. -/
  | notify (c : {c : Callback // isAccessCall c = false})
  /-- What the pass made of an instruction. -/
  | slot (s : Slot)
  /-- `loadOmpStatus` and `__sword__cond`: a load of `__sword_status__` and its comparison
  with 1. -/
  | testStatus
  deriving DecidableEq

/-- The end of a block. -/
inductive Terminator
  | ret (v : Option Operand)
  | br (dest : ℕ) (args : List Operand)
  | condBr (cond : Operand) (ifTrue : ℕ) (trueArgs : List Operand) (ifFalse : ℕ)
      (falseArgs : List Operand)
  deriving DecidableEq, Repr

/-- The blocks it may lead to. -/
def Terminator.targets : Terminator → List ℕ
  | .ret _ => []
  | .br dest _ => [dest]
  | .condBr _ ifTrue _ ifFalse _ => [ifTrue, ifFalse]

structure Block where
  code : List Step
  term : Terminator
  deriving DecidableEq

/-- A function, with what the pass asks about it. -/
structure Func where
  name : String
  arity : ℕ
  returnsVoid : Bool := false
  /-- `getLinkage() == AvailableExternallyLinkage` -/
  availableExternally : Bool := false
  /-- `&F == SwordCtorFunction` -/
  isCtor : Bool := false
  /-- Some instruction of the entry block has a debug location. -/
  entryHasDebugLoc : Bool := true
  entry : Block
  blocks : List Block := []
  /-- Branches lead to blocks of the function. -/
  targets_lt : ∀ b ∈ entry :: blocks, ∀ l ∈ b.term.targets, l < blocks.length
  /-- A function of type `void` returns no value. -/
  ret_void : returnsVoid = true → ∀ b ∈ entry :: blocks, ∀ v, b.term = .ret v → v = none

/-- A program: the unit that is compiled, and the functions it is linked with. -/
structure Program where
  functions : List Func
  library : List Func

/-- All functions. -/
def Program.all (P : Program) : List Func := P.functions ++ P.library

/-- The function of a name. -/
def Program.lookup (P : Program) (name : String) : Option Func :=
  P.all.find? fun f => f.name = name

/-! ## The tool -/

/-- `__sword_status__` after these calls, in a thread that has just begun. -/
def status (trace : List Callback) : Int := trace.foldl statusAfter 0

/-- It is what the runtime has in its variable. -/
theorem status_eq (lzo : Lzo) (hashCombine : UInt64 → UInt64 → UInt64) (trace : List Callback) :
    (trace.foldl (callback lzo hashCombine) onThreadBegin).status = status trace := by
  have h : ∀ s : Tls, (trace.foldl (callback lzo hashCombine) s).status =
      trace.foldl statusAfter s.status := by
    induction trace with
    | nil => exact fun _ => rfl
    | cons c trace ih =>
      intro s
      rw [List.foldl_cons, ih, callback_status, List.foldl_cons]
  exact h onThreadBegin

/-- Accesses leave it alone. -/
theorem status_filter (trace : List Callback) :
    status (trace.filter fun c => !isAccessCall c) = status trace := by
  unfold status
  generalize (0 : Int) = n
  induction trace generalizing n with
  | nil => rfl
  | cons c trace ih =>
    cases c with
    | access => exact ih n
    | _ => exact ih _

/-- The call into the tool that an inserted call makes, if its function is defined. -/
def RuntimeCall.callback (args : List ℕ) (vals : List Value) (callerpc : UInt64)
    (c : RuntimeCall) : Option Callback :=
  (runtimeInterface c.function).map fun (asize, atype) =>
    .access asize atype
      (UInt64.ofNat ((c.args.head?.map (Operand.eval args vals)).getD 0)) callerpc

/-- A rewritten instruction: the calls into the tool, memory, and the value. -/
def Slot.run (args : List ℕ) (env : Environment) (mem : Memory) (vals : List Value) (s : Slot) :
    Option (List Callback × Memory × Value) :=
  let k := vals.length
  (s.calls.mapM (RuntimeCall.callback args vals (env.callerpc k))).map fun cs =>
    let (mem, own) := match s.original with
      | some i => i.exec args mem vals
      | none => (mem, {})
    let v := match s.uses with
      | .original => own
      | .call => { old := env.junk k }
      | .compareExchange bytes cmp =>
        ⟨env.junk k, env.junk k % 256 ^ bytes = cmp.eval args vals % 256 ^ bytes⟩
    (cs, mem, v)

/-- The calls, one after the other. -/
theorem foldlM_exec (lzo : Lzo) (hashCombine : UInt64 → UInt64 → UInt64) (args : List ℕ)
    (vals : List Value) (callerpc : UInt64) (calls : List RuntimeCall) (tls : Tls) :
    calls.foldlM (RuntimeCall.exec lzo hashCombine args vals callerpc) tls =
      (calls.mapM (RuntimeCall.callback args vals callerpc)).map fun cs =>
        cs.foldl (Rtl.callback lzo hashCombine) tls := by
  induction calls generalizing tls with
  | nil => rfl
  | cons c calls ih =>
    rw [List.foldlM_cons, List.mapM_cons, RuntimeCall.exec, RuntimeCall.callback]
    cases runtimeInterface c.function with
    | none => rfl
    | some f =>
      simp only [Option.map_some, Option.bind_eq_bind, Option.bind_some, Option.pure_def]
      rw [ih]
      cases calls.mapM (RuntimeCall.callback args vals callerpc) <;> rfl

/-- It does to the runtime what its calls do. -/
theorem Slot.step_eq (lzo : Lzo) (hashCombine : UInt64 → UInt64 → UInt64) (args : List ℕ)
    (env : Environment) (t : Target) (s : Slot) :
    s.step lzo hashCombine args env t = (s.run args env t.mem t.vals).map fun r =>
      { mem := r.2.1, vals := t.vals ++ [r.2.2],
        tls := r.1.foldl (Rtl.callback lzo hashCombine) t.tls } := by
  rw [Slot.step, Slot.run, foldlM_exec, Option.map_map, Option.map_map]
  rfl

/-! ## One thread -/

/-- An invocation of a function. -/
structure Frame where
  func : Func
  /-- The block it is in; `none` is the entry block. -/
  label : Option ℕ := none
  /-- The arguments of the block. -/
  args : List ℕ
  /-- The values of the instructions of the block so far. -/
  vals : List Value := []
  rest : List Step
  term : Terminator
  /-- Its accesses are noted. -/
  logs : Bool

/-- A thread. -/
structure State where
  /-- The innermost invocation comes first; the others wait for the value of their call. -/
  stack : List Frame
  mem : Memory
  /-- The calls into the tool. -/
  trace : List Callback
  /-- What the outermost invocation returned. -/
  ret : ℕ := 0

/-- An instruction is over. -/
def Frame.push (fr : Frame) (v : Value) (rest : List Step) : Frame :=
  { fr with vals := fr.vals ++ [v], rest := rest }

/-- An invocation waits for the value of its call. -/
def Frame.wait (fr : Frame) (rest : List Step) : Frame := { fr with rest := rest }

/-- The operands, evaluated. -/
def Frame.eval (fr : Frame) (os : List Operand) : List ℕ :=
  os.map (Operand.eval fr.args fr.vals)

/-- A branch is taken. -/
def Frame.goto (fr : Frame) (l : ℕ) (os : List Operand) : Option Frame :=
  (fr.func.blocks[l]?).map fun b =>
    { fr with label := some l, args := fr.eval os, vals := [], rest := b.code, term := b.term }

/-- The arguments of a call, one for each parameter. -/
def Func.bound (f : Func) (args : List ℕ) : List ℕ :=
  (List.range f.arity).map fun i => args.getD i 0

/-- An invocation is over, and its caller has the value. -/
def State.leave (s : State) (r : ℕ) : List Frame → State
  | [] => { s with stack := [], ret := r }
  | caller :: callers => { s with stack := caller.push { old := r } caller.rest :: callers }

/-- The access that an instruction makes, as the tool is to see it: a chosen plain load or store
of a size it has a function for. -/
def Op.logged : Op → Option (AccessSize × AccessType)
  | .load bytes align atomic true =>
    if isAtomic (.load bytes align atomic true) then none
    else (getMemoryAccessFuncIndex bytes).map fun asize => (asize, .unsafeRead)
  | .store bytes align atomic true =>
    if isAtomic (.store bytes align atomic true) then none
    else (getMemoryAccessFuncIndex bytes).map fun asize => (asize, .unsafeWrite)
  | _ => none

/-- The call that notes an access, from this place of the code. -/
def Frame.note (fr : Frame) (env : Environment) (i : Instr) : List Callback :=
  (i.op.logged.map fun (asize, atype) =>
    Callback.access asize atype (UInt64.ofNat (i.ptr.eval fr.args fr.vals))
      (env.callerpc fr.vals.length)).toList

section Machine

variable (P : Program) (policy : Func → Int → Bool) (place : Func → Option ℕ → Environment)

/-- A function is called. -/
def enter (f : Func) (args : List ℕ) (status : Int) : Frame :=
  { func := f
    args := f.bound args
    rest := f.entry.code
    term := f.entry.term
    logs := policy f status }

/-- One step of the innermost invocation; `none` when there is none, or when it goes wrong. -/
def next (s : State) : Option State :=
  match s.stack with
  | [] => none
  | fr :: callers =>
    match fr.rest with
    | .instr i :: rest =>
      let (mem, v) := i.exec fr.args s.mem fr.vals
      some { s with
        stack := fr.push v rest :: callers
        mem := mem
        trace := s.trace ++ if fr.logs then fr.note (place fr.func fr.label) i else [] }
    | .call callee os :: rest =>
      (P.lookup callee).map fun f =>
        { s with
          stack := enter policy f (fr.eval os) (status s.trace) :: fr.wait rest :: callers }
    | .notify c :: rest =>
      some { s with stack := fr.push {} rest :: callers, trace := s.trace ++ [c.1] }
    | .slot slot :: rest =>
      (slot.run fr.args (place fr.func fr.label) s.mem fr.vals).map fun (cs, mem, v) =>
        { s with stack := fr.push v rest :: callers, mem := mem, trace := s.trace ++ cs }
    | .testStatus :: rest =>
      let v := { success := decide (status s.trace = 1) }
      some { s with stack := fr.push v rest :: callers }
    | [] =>
      match fr.term with
      | .ret v => some (s.leave ((v.map (Operand.eval fr.args fr.vals)).getD 0) callers)
      | .br l os => (fr.goto l os).map fun fr => { s with stack := fr :: callers }
      | .condBr cond l os l' os' =>
        (if cond.eval fr.args fr.vals ≠ 0 then fr.goto l os else fr.goto l' os').map fun fr =>
          { s with stack := fr :: callers }

end Machine

/-! ## Notes change nothing -/

def Frame.erase (fr : Frame) : Frame := { fr with logs := false }

/-- The thread without the notes. -/
def State.erase (s : State) : State :=
  { s with
    stack := s.stack.map Frame.erase
    trace := s.trace.filter fun c => !isAccessCall c }

/-- Nothing is noted. -/
def unlogged : Func → Int → Bool := fun _ _ => false

@[simp] theorem unlogged_apply (f : Func) (status : Int) : unlogged f status = false := rfl

theorem filter_note (fr : Frame) (env : Environment) (i : Instr) :
    (fr.note env i).filter (fun c => !isAccessCall c) = [] := by
  unfold Frame.note
  cases i.op.logged <;> rfl

@[simp] theorem erase_func (fr : Frame) : fr.erase.func = fr.func := rfl

@[simp] theorem erase_label (fr : Frame) : fr.erase.label = fr.label := rfl

@[simp] theorem erase_args (fr : Frame) : fr.erase.args = fr.args := rfl

@[simp] theorem erase_vals (fr : Frame) : fr.erase.vals = fr.vals := rfl

@[simp] theorem erase_rest (fr : Frame) : fr.erase.rest = fr.rest := rfl

@[simp] theorem erase_term (fr : Frame) : fr.erase.term = fr.term := rfl

@[simp] theorem erase_eval (fr : Frame) (os : List Operand) : fr.erase.eval os = fr.eval os := rfl

@[simp] theorem erase_erase (fr : Frame) : fr.erase.erase = fr.erase := rfl

@[simp] theorem erase_comp_erase : Frame.erase ∘ Frame.erase = Frame.erase := rfl

@[simp] theorem erase_push (fr : Frame) (v : Value) (rest : List Step) :
    (fr.push v rest).erase = fr.erase.push v rest := rfl

@[simp] theorem erase_wait (fr : Frame) (rest : List Step) :
    (fr.wait rest).erase = fr.erase.wait rest := rfl

@[simp] theorem erase_goto (fr : Frame) (l : ℕ) (os : List Operand) :
    fr.erase.goto l os = (fr.goto l os).map Frame.erase := by
  rw [Frame.goto, Frame.goto, Option.map_map]
  rfl

variable {P : Program} {policy : Func → Int → Bool} {place : Func → Option ℕ → Environment}

@[simp] theorem erase_enter (f : Func) (args : List ℕ) (status : Int) :
    (enter policy f args status).erase = enter unlogged f args status := rfl

/-- One step, with the notes and without. -/
theorem next_erase (s : State) : (next P unlogged place s.erase).map State.erase =
    (next P policy place s).map State.erase := by
  obtain ⟨stack, mem, trace, ret⟩ := s
  cases stack with
  | nil => simp [next, State.erase]
  | cons fr callers =>
    cases hrest : fr.rest with
    | nil =>
      cases hterm : fr.term with
      | ret v => cases callers <;> simp [next, State.leave, State.erase, hrest, hterm]
      | br l os => simp [next, State.erase, hrest, hterm, Function.comp_def]
      | condBr cond l os l' os' =>
        by_cases hcond : cond.eval fr.args fr.vals = 0 <;>
          simp [next, State.erase, hrest, hterm, hcond, Function.comp_def]
    | cons step rest =>
      cases step with
      | instr i =>
        have hnote : (if fr.logs then fr.note (place fr.func fr.label) i else []).filter
            (fun c => !isAccessCall c) = [] := by
          split
          · exact filter_note _ _ _
          · rfl
        have hlogs : fr.erase.logs = false := rfl
        simp [next, State.erase, hrest, hnote, hlogs]
      | call callee os => simp [next, State.erase, hrest, status_filter, Function.comp_def]
      | notify c => simp [next, State.erase, hrest]
      | slot slot => simp [next, State.erase, hrest, Function.comp_def]
      | testStatus => simp [next, State.erase, hrest, status_filter]

/-- Only the calls that the pass inserted ask where they are. -/
theorem next_place {place' : Func → Option ℕ → Environment} {s : State}
    (h : ∀ fr callers, s.stack = fr :: callers → ∀ slot rest, fr.rest ≠ .slot slot :: rest) :
    next P unlogged place' s.erase = next P unlogged place s.erase := by
  obtain ⟨stack, mem, trace, ret⟩ := s
  cases stack with
  | nil => rfl
  | cons fr callers =>
    cases hrest : fr.rest with
    | nil => simp [next, State.erase, hrest]
    | cons step rest =>
      cases step with
      | slot slot => exact absurd hrest (h fr callers rfl slot rest)
      | instr i =>
        have hlogs : fr.erase.logs = false := rfl
        simp [next, State.erase, hrest, hlogs]
      | _ => simp [next, State.erase, hrest]

end Transforms
end Sword
