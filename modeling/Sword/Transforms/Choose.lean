import Sword.Lib.SkipErase
import Sword.Transforms.Program

/-!
# Which accesses are instrumented: `chooseInstructionsToInstrument`

`runOnFunction` goes through the blocks of a function, collects the plain loads and stores
between calls, and hands each such segment to `chooseInstructionsToInstrument`.  Its first
loop goes backwards through the segment and selects accesses; its second loop erases from
the list of all accesses selected so far those with an operand that is a variable of the
compiler.

* `Instruction`, `IRModule`, `IRFunction` — what the pass looks at.
* `chooseStep`, `chooseInstructionsToInstrument`, `collect` — the two loops and the traversal.
* `segments`, `selection` — the segments of a function, and what the first loop selects.
* `collect_allLoadsAndStores` — the traversal is the rounds of a loop that erases from the
  list it iterates over.
* `filter_exact_iff` — when the second loop amounts to a filter.
* `readsJustified_iff` — when a load left out because of a later store has such a store
  among the instrumented accesses.
-/

namespace Sword
namespace Transforms

open SkipErase

/-! ## What the pass looks at -/

/-- An instruction, as far as the pass looks at it; `V` is the type of `Value *`. -/
inductive Instruction (V : Type)
  | load (ptr : V) (atomic : Option (AtomicOrdering × SyncScope))
  | store (value ptr : V) (atomic : Option (AtomicOrdering × SyncScope))
  | atomicRMW
  | cmpxchg
  | fence
  | call
  | invoke
  | other

/-- A `GlobalVariable`. -/
structure GlobalVariable where
  sectionName : Option String := none
  isConstant : Bool := false

/-- The values of a module, and the answers of LLVM to the questions of the pass. -/
structure IRModule (V : Type) where
  /-- The instruction a value is, if it is one. -/
  instruction : V → Instruction V
  getName : V → String
  /-- `getMetadata("sword.ompstatus")` -/
  ompstatus : V → Bool
  stripInBoundsOffsets : V → V
  /-- The pointer operand, if the value is a `GetElementPtrInst`. -/
  gepPointerOperand : V → Option V
  globalVariable : V → Option GlobalVariable
  pointerAddressSpace : V → ℕ
  isVtableAccess : V → Bool
  /-- `isa<AllocaInst>(GetUnderlyingObject(Addr, DL)) && !PointerMayBeCaptured(Addr, true, true)` -/
  notCaptured : V → Bool
  /-- `getInstrProfSectionName(IPSK_cnts, OF, false)` -/
  profSectionName : String

/-- A function: its blocks, with every instruction in one place. -/
structure IRFunction (V : Type) where
  blocks : List (List V)
  nodup : blocks.flatten.Nodup

/-- `isAtomic`. -/
def Instruction.isAtomic {V : Type} : Instruction V → Bool
  | .load _ atomic => atomic.any fun a => a.2 ≠ .singleThread
  | .store _ _ atomic => atomic.any fun a => a.2 ≠ .singleThread
  | .atomicRMW | .cmpxchg | .fence => true
  | .call | .invoke | .other => false

/-- The operands of a load or a store. -/
def Instruction.operands {V : Type} : Instruction V → List V
  | .load ptr _ => [ptr]
  | .store value ptr _ => [value, ptr]
  | _ => []

/-- The names of the variables the second loop looks for. -/
def compilerVariables : List String :=
  [".omp.iv", ".omp.lb", ".omp.ub", ".omp.stride", ".omp.is_last", ".global_tid"]

variable {V : Type} (M : IRModule V)

/-- `shouldInstrumentReadWriteFromAddress`. -/
def shouldInstrumentReadWriteFromAddress (addr : V) : Bool :=
  let addr := M.stripInBoundsOffsets addr
  let excluded :=
    match M.globalVariable addr with
    | some gv =>
      (gv.sectionName.any fun s => M.profSectionName.toList.isSuffixOf s.toList) ||
        "__llvm_gcov".toList.isPrefixOf (M.getName addr).toList ||
        "__llvm_gcda".toList.isPrefixOf (M.getName addr).toList
    | none => false
  !excluded && M.pointerAddressSpace addr == 0

/-- `addrPointsToConstantData`. -/
def addrPointsToConstantData (addr : V) : Bool :=
  let addr := (M.gepPointerOperand addr).getD addr
  match M.globalVariable addr, M.instruction addr with
  | some gv, _ => gv.isConstant
  | none, .load _ _ => M.isVtableAccess addr
  | none, _ => false

/-- The test of the second loop. -/
def hasCompilerVariable (i : V) : Bool :=
  (M.instruction i).operands.any fun v => compilerVariables.contains (M.getName v)

/-! ## The loops -/

/-- The state of the first loop: `All`, `WriteTargets`, and the loads that
`NumOmittedReadsBeforeWrite` counts. -/
structure Choice (V : Type) where
  all : List V := []
  writeTargets : List V := []
  omittedReadsBeforeWrite : List V := []

/-- The end of the first loop: the test for variables that are not captured, and
`All.push_back(I)`. -/
def pushUnlessNotCaptured (addr i : V) (c : Choice V) : Choice V :=
  if M.notCaptured addr then c else { c with all := c.all ++ [i] }

/-- What `runOnFunction` collects. -/
structure Collected (V : Type) where
  allLoadsAndStores : List V := []
  localLoadsAndStores : List V := []
  atomicAccesses : List V := []
  omittedReadsBeforeWrite : List V := []

section Loops

variable [DecidableEq V]

/-- The first loop, on one instruction. -/
def chooseStep (c : Choice V) (i : V) : Choice V :=
  if M.ompstatus i then c
  else
    match M.instruction i with
    | .store _ addr _ =>
      if !shouldInstrumentReadWriteFromAddress M addr then c
      else pushUnlessNotCaptured M addr i { c with writeTargets := addr :: c.writeTargets }
    | .load addr _ =>
      if !shouldInstrumentReadWriteFromAddress M addr then c
      else if addr ∈ c.writeTargets then
        { c with omittedReadsBeforeWrite := c.omittedReadsBeforeWrite ++ [i] }
      else if addrPointsToConstantData M addr then c
      else pushUnlessNotCaptured M addr i c
    | _ => c

/-- The first loop, from the end of the segment. -/
def firstLoop (c : Choice V) (seg : List V) : Choice V := seg.reverse.foldl (chooseStep M) c

/-- `chooseInstructionsToInstrument`: the first loop, the second loop over `All`, and
`Local.clear()`. -/
def chooseInstructionsToInstrument (s : Collected V) : Collected V :=
  let c := firstLoop M
    { all := s.allLoadsAndStores, omittedReadsBeforeWrite := s.omittedReadsBeforeWrite }
    s.localLoadsAndStores
  { s with
    allLoadsAndStores := eraseLoop (hasCompilerVariable M) 0 c.all
    localLoadsAndStores := []
    omittedReadsBeforeWrite := c.omittedReadsBeforeWrite }

/-- The traversal, on one instruction. -/
def collectStep (s : Collected V) (i : V) : Collected V :=
  if (M.instruction i).isAtomic then { s with atomicAccesses := s.atomicAccesses ++ [i] }
  else
    match M.instruction i with
    | .load _ _ | .store _ _ _ => { s with localLoadsAndStores := s.localLoadsAndStores ++ [i] }
    | .call | .invoke => chooseInstructionsToInstrument M s
    | _ => s

/-- The traversal of a block. -/
def collectBlock (s : Collected V) (b : List V) : Collected V :=
  chooseInstructionsToInstrument M (b.foldl (collectStep M) s)

/-- What has been collected when `runOnFunction` starts instrumenting. -/
def collect (f : IRFunction V) : Collected V := f.blocks.foldl (collectBlock M) {}

end Loops

/-! ## Segments -/

/-- A load or a store that is not atomic. -/
def isAccess (i : V) : Bool :=
  !(M.instruction i).isAtomic &&
    match M.instruction i with
    | .load _ _ | .store _ _ _ => true
    | _ => false

/-- A call. -/
def isCall (i : V) : Bool :=
  match M.instruction i with
  | .call | .invoke => true
  | _ => false

/-- The segments of a block, behind some accesses. -/
def segmentsFrom (accesses : List V) : List V → List (List V)
  | [] => [accesses]
  | i :: is =>
    if isAccess M i then segmentsFrom (accesses ++ [i]) is
    else if isCall M i then accesses :: segmentsFrom [] is
    else segmentsFrom accesses is

/-- The segments of a function, in the order they are handed over. -/
def segments (f : IRFunction V) : List (List V) := f.blocks.flatMap (segmentsFrom M [])

section Segments

variable {M} {accesses part rest b seg : List V} {i : V} {f : IRFunction V} {load store : V}

theorem isCall_of_isAccess (h : isAccess M i = true) : isCall M i = false := by
  unfold isAccess at h
  unfold isCall
  cases hi : M.instruction i <;> simp_all

/-- A stretch without calls adds its accesses. -/
theorem segmentsFrom_append (hpart : ∀ i ∈ part, isCall M i = false) :
    segmentsFrom M accesses (part ++ rest) =
      segmentsFrom M (accesses ++ part.filter (isAccess M)) rest := by
  induction part generalizing accesses with
  | nil => simp
  | cons i part ih =>
    have ih := fun accesses => @ih accesses fun j hj => hpart j (List.mem_cons_of_mem _ hj)
    rw [List.cons_append, segmentsFrom]
    cases ha : isAccess M i with
    | true =>
      rw [if_pos rfl, ih, List.filter_cons_of_pos ha, List.append_assoc, List.singleton_append]
    | false =>
      rw [if_neg Bool.false_ne_true, hpart i List.mem_cons_self, if_neg Bool.false_ne_true, ih,
        List.filter_cons_of_neg (by simp [ha])]

theorem exists_stretch_of_part (hpart : ∀ i ∈ part, isCall M i = false)
    (h : seg ∈ segmentsFrom M (part.filter (isAccess M)) rest) :
    ∃ stretch, stretch <:+: part ++ rest ∧ (∀ i ∈ stretch, isCall M i = false) ∧
      seg = stretch.filter (isAccess M) := by
  induction rest generalizing part with
  | nil => exact ⟨part, List.infix_append' [] part [], hpart, List.mem_singleton.1 h⟩
  | cons i rest ih =>
    cases hc : isCall M i with
    | true =>
      have ha : isAccess M i = false :=
        Bool.eq_false_iff.2 fun ha => by rw [isCall_of_isAccess ha] at hc; cases hc
      rw [segmentsFrom, ha, if_neg Bool.false_ne_true, hc, if_pos rfl] at h
      rcases List.mem_cons.1 h with rfl | h
      · exact ⟨part, List.infix_append' [] part _, hpart, rfl⟩
      · obtain ⟨stretch, hin, hstretch⟩ := @ih [] (fun _ h => (List.not_mem_nil h).elim) h
        refine ⟨stretch, hin.trans ?_, hstretch⟩
        exact ⟨part ++ [i], [], by simp⟩
    | false =>
      have hi : ∀ j ∈ [i], isCall M j = false := List.forall_mem_singleton.2 hc
      have hone : segmentsFrom M (part.filter (isAccess M)) (i :: rest) =
          segmentsFrom M ((part ++ [i]).filter (isAccess M)) rest := by
        rw [List.filter_append]
        exact segmentsFrom_append hi
      rw [hone] at h
      have := ih (List.forall_mem_append.2 ⟨hpart, hi⟩) h
      rwa [List.append_assoc] at this

/-- A segment is the accesses of a stretch without calls. -/
theorem exists_stretch (h : seg ∈ segmentsFrom M [] b) : ∃ stretch, stretch <:+: b ∧
    (∀ i ∈ stretch, isCall M i = false) ∧ seg = stretch.filter (isAccess M) := by
  have h : seg ∈ segmentsFrom M (([] : List V).filter (isAccess M)) b := h
  exact exists_stretch_of_part (fun _ h => (List.not_mem_nil h).elim) h

theorem exists_prefix (accesses rest : List V) :
    ∃ seg ∈ segmentsFrom M accesses rest, accesses <+: seg := by
  induction rest generalizing accesses with
  | nil => exact ⟨accesses, List.mem_singleton_self _, List.prefix_rfl⟩
  | cons i rest ih =>
    rw [segmentsFrom]
    split
    · obtain ⟨seg, hseg, hpre⟩ := ih (accesses ++ [i])
      exact ⟨seg, hseg, (List.prefix_append _ _).trans hpre⟩
    · split
      · exact ⟨accesses, List.mem_cons_self, List.prefix_rfl⟩
      · exact ih accesses

theorem mem_segmentsFrom_append (front : List V)
    (h : ∀ accesses, ∃ seg ∈ segmentsFrom M accesses rest, part <:+: seg) :
    ∃ seg ∈ segmentsFrom M accesses (front ++ rest), part <:+: seg := by
  induction front generalizing accesses with
  | nil => exact h accesses
  | cons i front ih =>
    rw [List.cons_append, segmentsFrom]
    split
    · exact ih
    · split
      · obtain ⟨seg, hseg, hpart⟩ := @ih []
        exact ⟨seg, List.mem_cons_of_mem _ hseg, hpart⟩
      · exact ih

/-- The accesses of every stretch without calls are in one segment. -/
theorem exists_segment (hin : part <:+: b) (hpart : ∀ i ∈ part, isCall M i = false) :
    ∃ seg ∈ segmentsFrom M [] b, part.filter (isAccess M) <:+: seg := by
  obtain ⟨front, rest, rfl⟩ := hin
  rw [List.append_assoc]
  refine mem_segmentsFrom_append front fun accesses => ?_
  obtain ⟨seg, hseg, hpre⟩ := exists_prefix (M := M) (accesses ++ part.filter (isAccess M)) rest
  rw [segmentsFrom_append hpart]
  exact ⟨seg, hseg, (List.suffix_append _ _).isInfix.trans hpre.isInfix⟩

variable (M) in
/-- An instruction is in the same block as another one, behind it, with no call in between. -/
def Behind (f : IRFunction V) (i j : V) : Prop :=
  ∃ b ∈ f.blocks, ∃ earlier between later, b = earlier ++ i :: (between ++ j :: later) ∧
    ∀ k ∈ between, isCall M k = false

/-- An access is behind another one in a segment exactly if it is in its block with no call in
between. -/
theorem behind_iff {i j : V} (hi : isAccess M i = true) (hj : isAccess M j = true) :
    Behind M f i j ↔
      ∃ seg ∈ segments M f, ∃ earlier later, seg = earlier ++ i :: later ∧ j ∈ later := by
  constructor
  · rintro ⟨b, hb, earlier, between, later, rfl, hcall⟩
    have hin : i :: (between ++ [j]) <:+: earlier ++ i :: (between ++ j :: later) :=
      ⟨earlier, later, by simp⟩
    obtain ⟨seg, hseg, before, after, heq⟩ := exists_segment hin
      (List.forall_mem_cons.2 ⟨isCall_of_isAccess hi, List.forall_mem_append.2
        ⟨hcall, List.forall_mem_singleton.2 (isCall_of_isAccess hj)⟩⟩)
    refine ⟨seg, List.mem_flatMap.2 ⟨_, hb, hseg⟩, before,
      between.filter (isAccess M) ++ [j] ++ after, ?_, by simp⟩
    rw [← heq, List.filter_cons_of_pos hi, List.filter_append, List.filter_cons_of_pos hj]
    simp
  · rintro ⟨seg, hseg, earlier, later, rfl, hmem⟩
    obtain ⟨b, hb, hseg⟩ := List.mem_flatMap.1 hseg
    obtain ⟨stretch, ⟨front, rest, rfl⟩, hcall, heq⟩ := exists_stretch hseg
    obtain ⟨l₁, l₂, rfl, -, heq⟩ := List.filter_eq_append_iff.1 heq.symm
    obtain ⟨m₁, m₂, rfl, -, -, rfl⟩ := List.filter_eq_cons_iff.1 heq
    obtain ⟨between, after, rfl⟩ := List.append_of_mem (List.mem_filter.1 hmem).1
    refine ⟨_, hb, front ++ l₁ ++ m₁, between, after ++ rest, by simp, fun k hk => hcall k ?_⟩
    simp [hk]

theorem isAccess_of_mem_segments (hseg : seg ∈ segments M f) (hi : i ∈ seg) :
    isAccess M i = true := by
  obtain ⟨b, -, hseg⟩ := List.mem_flatMap.1 hseg
  obtain ⟨stretch, -, -, rfl⟩ := exists_stretch hseg
  exact (List.mem_filter.1 hi).2

end Segments

/-! ## What the first loop selects -/

/-- The elements that are met by a test on them and what is behind them, from the end. -/
def fromEnd (P : List V → V → Bool) : List V → List V
  | [] => []
  | i :: later => fromEnd P later ++ if P later i then [i] else []

theorem mem_fromEnd {P : List V → V → Bool} {seg : List V} {i : V} :
    i ∈ fromEnd P seg ↔ ∃ earlier later, seg = earlier ++ i :: later ∧ P later i := by
  induction seg with
  | nil => simp [fromEnd]
  | cons j seg ih =>
    rw [fromEnd, List.mem_append, ih]
    constructor
    · rintro (⟨earlier, later, rfl, hP⟩ | hj)
      · exact ⟨j :: earlier, later, rfl, hP⟩
      · split at hj
        · obtain rfl := List.mem_singleton.1 hj
          exact ⟨[], seg, rfl, ‹_›⟩
        · cases hj
    · rintro ⟨earlier, later, heq, hP⟩
      cases earlier with
      | nil =>
        cases heq
        exact Or.inr (by rw [if_pos hP]; exact List.mem_singleton_self i)
      | cons k earlier =>
        cases heq
        exact Or.inl ⟨earlier, later, rfl, hP⟩

section Selection

variable [DecidableEq V]

/-- A store to the address that becomes a write target. -/
def writesTo (addr i : V) : Bool :=
  !M.ompstatus i &&
    match M.instruction i with
    | .store _ ptr _ => ptr = addr && shouldInstrumentReadWriteFromAddress M addr
    | _ => false

/-- An access is selected. -/
def selects (later : List V) (i : V) : Bool :=
  !M.ompstatus i &&
    match M.instruction i with
    | .store _ addr _ => shouldInstrumentReadWriteFromAddress M addr && !M.notCaptured addr
    | .load addr _ =>
      shouldInstrumentReadWriteFromAddress M addr && !later.any (writesTo M addr) &&
        !addrPointsToConstantData M addr && !M.notCaptured addr
    | _ => false

/-- A load is left out because of a later store. -/
def omits (later : List V) (i : V) : Bool :=
  !M.ompstatus i &&
    match M.instruction i with
    | .load addr _ =>
      shouldInstrumentReadWriteFromAddress M addr && later.any (writesTo M addr)
    | _ => false

/-- The accesses of a segment that are selected. -/
def selection (seg : List V) : List V := fromEnd (selects M) seg

/-- The accesses selected of a function, with the numbers of their segments. -/
def selected (f : IRFunction V) : List (V × ℕ) := numbered 0 ((segments M f).map (selection M))

variable {M} {c : Choice V} {i addr : V} {seg later : List V}

theorem firstLoop_cons : firstLoop M c (i :: seg) = chooseStep M (firstLoop M c seg) i := by
  simp [firstLoop]

/-- What the first loop does to its state. -/
structure Chosen (M : IRModule V) (c : Choice V) (seg : List V) (c' : Choice V) : Prop where
  all : c'.all = c.all ++ selection M seg
  targets : ∀ addr, addr ∈ c'.writeTargets ↔ seg.any (writesTo M addr) = true
  omitted : c'.omittedReadsBeforeWrite = c.omittedReadsBeforeWrite ++ fromEnd (omits M) seg

theorem Chosen.next {c' c'' : Choice V} (h : Chosen M c seg c')
    (hall : c''.all = c'.all ++ if selects M seg i then [i] else [])
    (htargets : ∀ addr, addr ∈ c''.writeTargets ↔
      writesTo M addr i = true ∨ addr ∈ c'.writeTargets)
    (homitted : c''.omittedReadsBeforeWrite =
      c'.omittedReadsBeforeWrite ++ if omits M seg i then [i] else []) :
    Chosen M c (i :: seg) c'' where
  all := by rw [hall, h.all, List.append_assoc, selection, selection, fromEnd]
  targets addr := by rw [htargets, h.targets, List.any_cons, Bool.or_eq_true]
  omitted := by rw [homitted, h.omitted, List.append_assoc, fromEnd]

/-- An instruction that leaves the state alone. -/
theorem Chosen.skip {c' : Choice V} (h : Chosen M c seg c') (hs : selects M seg i = false)
    (hw : ∀ addr, writesTo M addr i = false) (ho : omits M seg i = false) :
    Chosen M c (i :: seg) c' :=
  h.next (by simp [hs]) (by simp [hw]) (by simp [ho])

/-- A load that is selected. -/
theorem Chosen.select {c' : Choice V} (h : Chosen M c seg c') (hs : selects M seg i = true)
    (hw : ∀ addr, writesTo M addr i = false) (ho : omits M seg i = false) :
    Chosen M c (i :: seg) { c' with all := c'.all ++ [i] } :=
  h.next (by simp [hs]) (by simp [hw]) (by simp [ho])

/-- A load that is left out because of a later store. -/
theorem Chosen.omit {c' : Choice V} (h : Chosen M c seg c') (hs : selects M seg i = false)
    (hw : ∀ addr, writesTo M addr i = false) (ho : omits M seg i = true) :
    Chosen M c (i :: seg)
      { c' with omittedReadsBeforeWrite := c'.omittedReadsBeforeWrite ++ [i] } :=
  h.next (by simp [hs]) (by simp [hw]) (by simp [ho])

/-- A store to an address that is instrumented. -/
theorem Chosen.store {c' : Choice V} (h : Chosen M c seg c') {value : V}
    {atomic : Option (AtomicOrdering × SyncScope)} (hst : M.ompstatus i = false)
    (hi : M.instruction i = .store value addr atomic)
    (hs : shouldInstrumentReadWriteFromAddress M addr = true) :
    Chosen M c (i :: seg)
      (pushUnlessNotCaptured M addr i { c' with writeTargets := addr :: c'.writeTargets }) := by
  have hsel : selects M seg i = !M.notCaptured addr := by simp [selects, hst, hi, hs]
  have homit : omits M seg i = false := by simp [omits, hi]
  have hwrites : ∀ a, writesTo M a i = true ↔ a = addr := by
    intro a
    simp only [writesTo, hst, hi, Bool.not_false, Bool.true_and, Bool.and_eq_true,
      decide_eq_true_eq]
    exact ⟨fun h => h.1.symm, fun h => ⟨h.symm, h ▸ hs⟩⟩
  unfold pushUnlessNotCaptured
  cases hn : M.notCaptured addr with
  | true => exact h.next (by simp [hsel, hn]) (by simp [hwrites]) (by simp [homit])
  | false => exact h.next (by simp [hsel, hn]) (by simp [hwrites]) (by simp [homit])

theorem Chosen.step {c' : Choice V} (h : Chosen M c seg c') :
    Chosen M c (i :: seg) (chooseStep M c' i) := by
  unfold chooseStep
  cases hst : M.ompstatus i with
  | true => exact h.skip (by simp [selects, hst]) (by simp [writesTo, hst]) (by simp [omits, hst])
  | false =>
    rw [if_neg Bool.false_ne_true]
    cases hi : M.instruction i with
    | store value addr atomic =>
      dsimp only
      cases hs : shouldInstrumentReadWriteFromAddress M addr with
      | false =>
        refine h.skip (by simp [selects, hi, hs]) (fun a => ?_) (by simp [omits, hi])
        by_cases ha : addr = a
        · simp [writesTo, hi, ← ha, hs]
        · simp [writesTo, hi, ha]
      | true => exact h.store hst hi hs
    | load addr atomic =>
      have hw : ∀ a, writesTo M a i = false := fun a => by simp [writesTo, hi]
      dsimp only
      cases hs : shouldInstrumentReadWriteFromAddress M addr with
      | false => exact h.skip (by simp [selects, hi, hs]) hw (by simp [omits, hi, hs])
      | true =>
        rw [Bool.not_true, if_neg Bool.false_ne_true]
        by_cases ht : addr ∈ c'.writeTargets
        · have hany := (h.targets addr).1 ht
          rw [if_pos ht]
          exact h.omit (by simp only [selects, hi, hany]; simp) hw
            (by simp only [omits, hst, hi, hs, hany]; rfl)
        · have hany : seg.any (writesTo M addr) = false :=
            Bool.eq_false_iff.2 fun hany => ht ((h.targets addr).2 hany)
          have ho : omits M seg i = false := by simp only [omits, hi, hany]; simp
          rw [if_neg ht]
          cases hc : addrPointsToConstantData M addr with
          | true => exact h.skip (by simp [selects, hi, hc]) hw ho
          | false =>
            rw [if_neg Bool.false_ne_true, pushUnlessNotCaptured]
            cases hn : M.notCaptured addr with
            | true => exact h.skip (by simp [selects, hi, hn]) hw ho
            | false => exact h.select (by simp only [selects, hst, hi, hs, hany, hc, hn]; rfl) hw ho
    | _ =>
      exact h.skip (by simp [selects, hi]) (fun a => by simp [writesTo, hi]) (by simp [omits, hi])

/-- **The first loop.** -/
theorem chosen_firstLoop (hc : c.writeTargets = []) : Chosen M c seg (firstLoop M c seg) := by
  induction seg with
  | nil =>
    exact ⟨(List.append_nil _).symm, fun addr => by simp [firstLoop, hc],
      (List.append_nil _).symm⟩
  | cons i seg ih =>
    rw [firstLoop_cons]
    exact ih.step

/-! ## The traversal -/

/-- What handing over some segments does. -/
structure Handed (M : IRModule V) (s : Collected V) (segs : List (List V)) (s' : Collected V) :
    Prop where
  all : s'.allLoadsAndStores =
    eraseRounds (hasCompilerVariable M) s.allLoadsAndStores (segs.map (selection M))
  locals : s'.localLoadsAndStores = []
  omitted : s'.omittedReadsBeforeWrite =
    s.omittedReadsBeforeWrite ++ segs.flatMap (fromEnd (omits M))

theorem Handed.append {s s' s'' : Collected V} {segs segs' : List (List V)}
    (h : Handed M s segs s') (h' : Handed M s' segs' s'') : Handed M s (segs ++ segs') s'' where
  all := by
    rw [h'.all, h.all, List.map_append, eraseRounds, eraseRounds, eraseRounds, List.foldl_append]
  locals := h'.locals
  omitted := by rw [h'.omitted, h.omitted, List.flatMap_append, List.append_assoc]

/-- One segment. -/
theorem handed_choose (s : Collected V) :
    Handed M s [s.localLoadsAndStores] (chooseInstructionsToInstrument M s) := by
  let c : Choice V :=
    { all := s.allLoadsAndStores, omittedReadsBeforeWrite := s.omittedReadsBeforeWrite }
  have h : Chosen M c s.localLoadsAndStores (firstLoop M c s.localLoadsAndStores) :=
    chosen_firstLoop rfl
  refine ⟨congrArg (eraseLoop _ 0) h.all, rfl, h.omitted.trans ?_⟩
  rw [List.flatMap_singleton]

theorem collectStep_of_access {s : Collected V} (h : isAccess M i = true) :
    collectStep M s i = { s with localLoadsAndStores := s.localLoadsAndStores ++ [i] } := by
  unfold isAccess at h
  unfold collectStep
  cases hi : M.instruction i <;> simp_all

theorem collectStep_of_call {s : Collected V} (h : isCall M i = true) :
    collectStep M s i = chooseInstructionsToInstrument M s := by
  unfold isCall at h
  unfold collectStep
  cases hi : M.instruction i <;> simp_all [Instruction.isAtomic]

theorem collectStep_of_other {s : Collected V} (ha : isAccess M i = false)
    (hc : isCall M i = false) :
    ∃ atomics, collectStep M s i = { s with atomicAccesses := atomics } := by
  unfold isAccess at ha
  unfold isCall at hc
  unfold collectStep
  cases hatomic : (M.instruction i).isAtomic with
  | true => exact ⟨_, rfl⟩
  | false =>
    refine ⟨s.atomicAccesses, ?_⟩
    cases hi : M.instruction i <;> simp_all

/-- One block. -/
theorem handed_collectBlock (s : Collected V) (b : List V) :
    Handed M s (segmentsFrom M s.localLoadsAndStores b) (collectBlock M s b) := by
  induction b generalizing s with
  | nil => exact handed_choose s
  | cons i b ih =>
    have ih := ih (collectStep M s i)
    have hstep : collectBlock M s (i :: b) = collectBlock M (collectStep M s i) b := rfl
    rw [hstep, segmentsFrom]
    cases ha : isAccess M i with
    | true =>
      rw [if_pos rfl]
      rw [collectStep_of_access ha] at ih ⊢
      exact ⟨ih.all, ih.locals, ih.omitted⟩
    | false =>
      rw [if_neg Bool.false_ne_true]
      cases hc : isCall M i with
      | true =>
        rw [if_pos rfl]
        rw [collectStep_of_call hc] at ih ⊢
        exact (handed_choose s).append ih
      | false =>
        rw [if_neg Bool.false_ne_true]
        obtain ⟨atomics, hs⟩ := collectStep_of_other (s := s) ha hc
        rw [hs] at ih ⊢
        exact ⟨ih.all, ih.locals, ih.omitted⟩

/-- **The whole function.** -/
theorem handed_collect (f : IRFunction V) : Handed M {} (segments M f) (collect M f) := by
  have hblocks : ∀ (blocks : List (List V)) (s : Collected V), s.localLoadsAndStores = [] →
      Handed M s (blocks.flatMap (segmentsFrom M [])) (blocks.foldl (collectBlock M) s) := by
    intro blocks
    induction blocks with
    | nil => exact fun s hs => ⟨rfl, hs, (List.append_nil _).symm⟩
    | cons b blocks ih =>
      intro s hs
      have hb := handed_collectBlock (M := M) s b
      rw [hs] at hb
      exact hb.append (ih _ hb.locals)
  exact hblocks f.blocks {} rfl

/-- The list of all accesses, in one pass over what is selected. -/
theorem collect_allLoadsAndStores (f : IRFunction V) : (collect M f).allLoadsAndStores =
    sift (hasCompilerVariable M) (segments M f).length 0 (selected M f) := by
  rw [(handed_collect f).all, eraseRounds_eq, List.length_map, selected]

/-! ## The second loop as a filter -/

variable (M) in
/-- **The second loop.**  The accesses instrumented are those that the first loop selects and
that have no variable of the compiler among their operands, in the order selected, exactly if
every run of selected accesses that have one weighs less than all segments together, where an
access of segment `k` weighs `2 ^ k`. -/
theorem filter_exact_iff (f : IRFunction V) :
    (collect M f).allLoadsAndStores =
        ((segments M f).flatMap fun seg => (firstLoop M {} seg).all).filter
          (fun i => !hasCompilerVariable M i) ↔
      ∀ run, run <:+: selected M f → (∀ x ∈ run, hasCompilerVariable M x.1 = true) →
        weight run < 2 ^ (segments M f).length := by
  have hfirst : ((segments M f).flatMap fun seg => (firstLoop M {} seg).all) =
      (selected M f).map Prod.fst := by
    have hseg : ∀ seg : List V, (firstLoop M {} seg).all = selection M seg :=
      fun seg => (chosen_firstLoop rfl).all
    rw [selected, map_fst_numbered, ← List.flatMap_def]
    exact congrArg (fun g => (segments M f).flatMap g) (funext hseg)
  rw [collect_allLoadsAndStores, hfirst]
  exact sift_eq_filter_iff

end Selection

/-- Instructions 0 and 1 store to `.omp.lb` and `.omp.ub`; 2 loads from the address 13, and 3
stores there the address of `.omp.lb`. -/
def loopPrologue : IRModule ℕ where
  instruction
    | 0 => .store 10 11 none
    | 1 => .store 10 12 none
    | 2 => .load 13 none
    | 3 => .store 11 13 none
    | _ => .other
  getName
    | 11 => ".omp.lb"
    | 12 => ".omp.ub"
    | _ => ""
  ompstatus _ := false
  stripInBoundsOffsets := id
  gepPointerOperand _ := none
  globalVariable _ := none
  pointerAddressSpace _ := 0
  isVtableAccess _ := false
  notCaptured _ := false
  profSectionName := "__llvm_prf_cnts"

/-- Of two adjacent stores to variables of the compiler, one is instrumented. -/
theorem loopPrologue_not_filtered :
    ¬ ∀ f : IRFunction ℕ, (collect loopPrologue f).allLoadsAndStores =
      ((segments loopPrologue f).flatMap fun seg => (firstLoop loopPrologue {} seg).all).filter
        (fun i => !hasCompilerVariable loopPrologue i) := by
  intro hall
  have h := hall ⟨[[0, 1]], by decide⟩
  rw [collect_allLoadsAndStores] at h
  exact absurd h (by decide)

/-! ## Loads left out -/

section LeftOut

variable [DecidableEq V] {M} {i addr : V} {later : List V}

variable (M) in
/-- An access to the address need not be recorded. -/
def Exempt (addr : V) : Prop :=
  M.notCaptured addr = true ∨ shouldInstrumentReadWriteFromAddress M addr = false ∨
    M.getName addr ∈ compilerVariables

variable (M) in
/-- Every load left out because of a later store is followed, in its block and with no call in
between, by a store to its address that is instrumented; or its address is exempt. -/
def ReadsJustified (f : IRFunction V) : Prop :=
  ∀ l ∈ (collect M f).omittedReadsBeforeWrite, ∃ addr atomic, M.instruction l = .load addr atomic ∧
    (Exempt M addr ∨ ∃ s value atomic', Behind M f l s ∧
      M.instruction s = .store value addr atomic' ∧ s ∈ (collect M f).allLoadsAndStores)

variable (M) in
/-- A load with a write target behind it. -/
structure ReadBeforeWrite (f : IRFunction V) (l addr : V) : Prop where
  access : isAccess M l = true
  load : ∃ atomic, M.instruction l = .load addr atomic
  ompstatus : M.ompstatus l = false
  instrumented : shouldInstrumentReadWriteFromAddress M addr = true
  target : ∃ s, Behind M f l s ∧ isAccess M s = true ∧ writesTo M addr s = true

variable (M) in
/-- A selected access that the second loop passes over each time it might erase it: the weight
of the run of accesses with variables of the compiler goes past a multiple of `2 ^ m`, where
`m` is the number of segments. -/
def Spared (f : IRFunction V) (i : V) : Prop :=
  ∃ before k behind, selected M f = before ++ (i, k) :: behind ∧
    (runWeight (hasCompilerVariable M) 0 before + 2 ^ k) / 2 ^ (segments M f).length ≠
      runWeight (hasCompilerVariable M) 0 before / 2 ^ (segments M f).length

variable {f : IRFunction V} {l s : V}

theorem writesTo_iff : writesTo M addr s = true ↔ M.ompstatus s = false ∧
    shouldInstrumentReadWriteFromAddress M addr = true ∧
      ∃ value atomic, M.instruction s = .store value addr atomic := by
  unfold writesTo
  cases hs : M.instruction s with
  | store value ptr atomic =>
    simp only [Bool.and_eq_true, Bool.not_eq_true', decide_eq_true_eq, Instruction.store.injEq]
    constructor
    · rintro ⟨hst, rfl, hin⟩
      exact ⟨hst, hin, value, atomic, rfl, rfl, rfl⟩
    · rintro ⟨hst, hin, value', atomic', rfl, rfl, rfl⟩
      exact ⟨hst, rfl, hin⟩
  | _ => simp

theorem omits_iff : omits M later l = true ↔ M.ompstatus l = false ∧ ∃ addr atomic,
    M.instruction l = .load addr atomic ∧ shouldInstrumentReadWriteFromAddress M addr = true ∧
      ∃ s ∈ later, writesTo M addr s = true := by
  unfold omits
  cases hl : M.instruction l with
  | load ptr atomic =>
    simp only [Bool.and_eq_true, Bool.not_eq_true', List.any_eq_true, Instruction.load.injEq]
    constructor
    · rintro ⟨hst, hin, hany⟩
      exact ⟨hst, ptr, atomic, ⟨rfl, rfl⟩, hin, hany⟩
    · rintro ⟨hst, addr, atomic', ⟨rfl, rfl⟩, hin, hany⟩
      exact ⟨hst, hin, hany⟩
  | _ => simp

/-- The loads left out are those with a write target behind them. -/
theorem mem_omitted_iff :
    l ∈ (collect M f).omittedReadsBeforeWrite ↔ ∃ addr, ReadBeforeWrite M f l addr := by
  rw [(handed_collect f).omitted]
  show l ∈ (segments M f).flatMap (fromEnd (omits M)) ↔ _
  rw [List.mem_flatMap]
  constructor
  · rintro ⟨seg, hseg, hl⟩
    obtain ⟨earlier, later, rfl, homits⟩ := mem_fromEnd.1 hl
    obtain ⟨hst, addr, atomic, hload, hin, s, hs, hw⟩ := omits_iff.1 homits
    have hla : isAccess M l = true := isAccess_of_mem_segments hseg (by simp)
    have hsa : isAccess M s = true := isAccess_of_mem_segments hseg (by simp [hs])
    exact ⟨addr, hla, ⟨atomic, hload⟩, hst, hin, s,
      (behind_iff hla hsa).2 ⟨_, hseg, earlier, later, rfl, hs⟩, hsa, hw⟩
  · rintro ⟨addr, hla, ⟨atomic, hload⟩, hst, hin, s, hbehind, hsa, hw⟩
    obtain ⟨seg, hseg, earlier, later, rfl, hs⟩ := (behind_iff hla hsa).1 hbehind
    exact ⟨_, hseg, mem_fromEnd.2 ⟨earlier, later, rfl,
      omits_iff.2 ⟨hst, addr, atomic, hload, hin, s, hs, hw⟩⟩⟩

/-- A selected access is one of a segment, and not marked. -/
theorem of_mem_selected {k : ℕ} (h : (i, k) ∈ selected M f) :
    isAccess M i = true ∧ M.ompstatus i = false := by
  have h : i ∈ (selected M f).map Prod.fst := List.mem_map.2 ⟨_, h, rfl⟩
  rw [selected, map_fst_numbered] at h
  obtain ⟨round, hround, hi⟩ := List.mem_flatten.1 h
  obtain ⟨seg, hseg, rfl⟩ := List.mem_map.1 hround
  obtain ⟨earlier, later, rfl, hsel⟩ := mem_fromEnd.1 hi
  refine ⟨isAccess_of_mem_segments hseg (by simp), ?_⟩
  unfold selects at hsel
  rw [Bool.and_eq_true, Bool.not_eq_true'] at hsel
  exact hsel.1

/-- A store to an address that is captured is selected if it becomes a write target. -/
theorem exists_mem_selected (hbehind : Behind M f l s) (hla : isAccess M l = true)
    (hsa : isAccess M s = true) (hw : writesTo M addr s = true) (hn : M.notCaptured addr = false) :
    ∃ k, (s, k) ∈ selected M f := by
  obtain ⟨hst, hin, value, atomic, hs⟩ := writesTo_iff.1 hw
  obtain ⟨seg, hseg, earlier, later, rfl, hmem⟩ := (behind_iff hla hsa).1 hbehind
  obtain ⟨between, after, rfl⟩ := List.append_of_mem hmem
  have hsel : s ∈ selection M (earlier ++ l :: (between ++ s :: after)) := by
    refine mem_fromEnd.2 ⟨earlier ++ l :: between, after, by simp, ?_⟩
    simp [selects, hst, hs, hin, hn]
  have h : s ∈ (selected M f).map Prod.fst := by
    rw [selected, map_fst_numbered]
    exact List.mem_flatten.2 ⟨_, List.mem_map.2 ⟨_, hseg, rfl⟩, hsel⟩
  obtain ⟨⟨_, k⟩, hk, rfl⟩ := List.mem_map.1 h
  exact ⟨k, hk⟩

/-- What is instrumented of the selected accesses. -/
theorem mem_allLoadsAndStores_iff : i ∈ (collect M f).allLoadsAndStores ↔
    (∃ k, (i, k) ∈ selected M f) ∧ (hasCompilerVariable M i = false ∨ Spared M f i) := by
  rw [collect_allLoadsAndStores, mem_sift_iff]
  constructor
  · rintro ⟨before, k, behind, heq, hcross⟩
    refine ⟨⟨k, by rw [heq]; simp⟩, ?_⟩
    cases hp : hasCompilerVariable M i with
    | false => exact Or.inl rfl
    | true => exact Or.inr ⟨before, k, behind, heq, hcross hp⟩
  · rintro ⟨⟨k, hk⟩, hp | ⟨before, k, behind, heq, hcross⟩⟩
    · obtain ⟨before, behind, heq⟩ := List.append_of_mem hk
      exact ⟨before, k, behind, heq, fun h => absurd (hp.symm.trans h) Bool.false_ne_true⟩
    · exact ⟨before, k, behind, heq, fun _ => hcross⟩

variable (M f) in
/-- **The loads left out are justified** exactly if every load with a write target behind it,
whose address is not exempt, has a write target behind it that has no variable of the
compiler among its operands or that the second loop passes over. -/
theorem readsJustified_iff : ReadsJustified M f ↔
    ∀ l addr, ReadBeforeWrite M f l addr → Exempt M addr ∨ ∃ s, Behind M f l s ∧
      isAccess M s = true ∧ writesTo M addr s = true ∧
        (hasCompilerVariable M s = false ∨ Spared M f s) := by
  constructor
  · intro hall l addr hl
    obtain ⟨addr', atomic, hload, h⟩ := hall l (mem_omitted_iff.2 ⟨addr, hl⟩)
    obtain ⟨atomic', hload'⟩ := hl.load
    obtain rfl : addr' = addr := by
      rw [hload] at hload'
      cases hload'
      rfl
    refine h.imp_right ?_
    rintro ⟨s, value, atomic'', hbehind, hs, hmem⟩
    obtain ⟨⟨k, hk⟩, hkept⟩ := mem_allLoadsAndStores_iff.1 hmem
    obtain ⟨hsa, hst⟩ := of_mem_selected hk
    exact ⟨s, hbehind, hsa, writesTo_iff.2 ⟨hst, hl.instrumented, value, atomic'', hs⟩, hkept⟩
  · intro hall l hl
    obtain ⟨addr, hl⟩ := mem_omitted_iff.1 hl
    obtain ⟨atomic, hload⟩ := hl.load
    refine ⟨addr, atomic, hload, ?_⟩
    cases hn : M.notCaptured addr with
    | true => exact Or.inl (Or.inl hn)
    | false =>
      refine (hall l addr hl).imp_right ?_
      rintro ⟨s, hbehind, hsa, hw, hkept⟩
      obtain ⟨-, -, value, atomic', hs⟩ := writesTo_iff.1 hw
      exact ⟨s, value, atomic', hbehind, hs, mem_allLoadsAndStores_iff.2
        ⟨exists_mem_selected hbehind hl.access hsa hw hn, hkept⟩⟩

end LeftOut

/-- A store of the address of a variable of the compiler is erased, and the load before it is
left out. -/
theorem loopPrologue_not_justified : ¬ ∀ f : IRFunction ℕ, ReadsJustified loopPrologue f := by
  intro hall
  have hleft : (collect loopPrologue ⟨[[2, 3]], by decide⟩).allLoadsAndStores = [] := by
    rw [collect_allLoadsAndStores]
    decide
  obtain ⟨addr, atomic, hload, h⟩ := hall ⟨[[2, 3]], by decide⟩ 2 (by decide)
  cases hload
  rcases h with hexempt | ⟨s, value, atomic', -, -, hmem⟩
  · revert hexempt
    unfold Exempt
    decide
  · rw [hleft] at hmem
    cases hmem

end Transforms
end Sword
