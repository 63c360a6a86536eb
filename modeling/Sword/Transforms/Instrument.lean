import Sword.Rtl.Thread
import Sword.Transforms.Program

/-!
# The instrumentation: `instrumentLoadOrStore` and `instrumentAtomic`

The pass adds a call in front of a plain access and replaces an atomic
instruction by a call.  The functions called are those of
`rtl/sword_interface.inl`: they log the access, leave user memory alone and
return nothing, and not all that the pass calls exist.

* `Slot` — what becomes of an instruction: the calls, whether the instruction is
  still there, and what its uses refer to.
* `instrument` — the pass on one instruction.
* `runtimeInterface` — the functions the runtime defines, with what they log.
* `Body.runInstrumented` — the rewritten body; a call of a function that is not
  defined has no result, and a value that no function returned is arbitrary.
* `Op.Kept` — the instructions the pass leaves in place, behind calls of
  functions that exist.
* `preserved_iff` — bodies built from a set of instructions keep their meaning
  exactly if every instruction of the set is kept.
-/

namespace Sword
namespace Transforms

open Rtl

/-! ## The pass -/

/-- `getMemoryAccessFuncIndex`; `none` is the result -1. -/
def getMemoryAccessFuncIndex (bytes : Nat) : Option AccessSize :=
  match bytes with
  | 1 => some .size1
  | 2 => some .size2
  | 4 => some .size4
  | 8 => some .size8
  | 16 => some .size16
  | _ => none

/-- `createOrdering`. -/
def createOrdering : AtomicOrdering → Nat
  | .unordered => 0
  | .monotonic => 0
  | .acquire => 2
  | .release => 3
  | .acquireRelease => 4
  | .sequentiallyConsistent => 5

/-- `isAtomic`. -/
def isAtomic : Op → Bool
  | .load _ _ atomic _ => atomic.any fun a => a.2 ≠ .singleThread
  | .store _ _ atomic _ => atomic.any fun a => a.2 ≠ .singleThread
  | .atomicRMW _ _ _ => true
  | .cmpxchg _ _ _ => true
  | .fence _ _ => true

/-- The functions `initializeCallbacks` declares. -/
inductive RuntimeFunction
  | read (size : AccessSize)
  | write (size : AccessSize)
  | unalignedRead (size : AccessSize)
  | unalignedWrite (size : AccessSize)
  | atomicLoad (size : AccessSize)
  | atomicStore (size : AccessSize)
  | atomicRMW (operation : BinOp) (size : AccessSize)
  | atomicCAS (size : AccessSize)
  | atomicThreadFence
  | atomicSignalFence
  deriving DecidableEq, Repr

/-- `SwordAtomicRMW[op][i]`, a null pointer for the operations without a function. -/
def swordAtomicRMW (operation : BinOp) (size : AccessSize) : Option RuntimeFunction :=
  match operation with
  | .xchg | .add | .sub | .and | .nand | .or | .xor => some (.atomicRMW operation size)
  | .max | .min | .umax | .umin => none

/-- A call the pass inserts. -/
structure RuntimeCall where
  function : RuntimeFunction
  args : List Operand
  deriving DecidableEq, Repr

/-- What the uses of an instruction refer to after the pass. -/
inductive Use
  | original
  | call
  | compareExchange (bytes : Nat) (cmp : Operand)
  deriving DecidableEq, Repr

/-- What becomes of an instruction. -/
structure Slot where
  calls : List RuntimeCall := []
  original : Option Instr
  uses : Use := .original
  deriving DecidableEq, Repr

/-- The test of `instrumentLoadOrStore` for an aligned access. -/
def alignedAccess (bytes align : Nat) : Bool := align = 0 || 8 ≤ align || align % bytes = 0

/-- `instrumentLoadOrStore` -/
def instrumentLoadOrStore (isWrite : Bool) (bytes align : Nat) (i : Instr) : Slot :=
  match getMemoryAccessFuncIndex bytes with
  | none => { original := some i }
  | some idx =>
    let onAccessFunc :=
      if alignedAccess bytes align then
        if isWrite then RuntimeFunction.write idx else .read idx
      else if isWrite then .unalignedWrite idx else .unalignedRead idx
    { calls := [⟨onAccessFunc, [i.ptr]⟩], original := some i }

/-- `instrumentAtomic`.  An atomic load stays where it is, without uses. -/
def instrumentAtomic (i : Instr) : Slot :=
  match i.op with
  | .load bytes _ atomic _ =>
    match getMemoryAccessFuncIndex bytes with
    | none => { original := some i }
    | some idx =>
      { calls := [⟨.atomicLoad idx,
          [i.ptr, .const ((atomic.map fun a => createOrdering a.1).getD 0)]⟩]
        original := some i
        uses := .call }
  | .store bytes _ atomic _ =>
    match getMemoryAccessFuncIndex bytes with
    | none => { original := some i }
    | some idx =>
      { calls := [⟨.atomicStore idx,
          [i.ptr, i.val, .const ((atomic.map fun a => createOrdering a.1).getD 0)]⟩]
        original := none
        uses := .call }
  | .atomicRMW operation bytes ordering =>
    match getMemoryAccessFuncIndex bytes with
    | none => { original := some i }
    | some idx =>
      match swordAtomicRMW operation idx with
      | none => { original := some i }
      | some f =>
        { calls := [⟨f, [i.ptr, i.val, .const (createOrdering ordering)]⟩]
          original := none
          uses := .call }
  | .cmpxchg bytes success failure =>
    match getMemoryAccessFuncIndex bytes with
    | none => { original := some i }
    | some idx =>
      { calls := [⟨.atomicCAS idx, [i.ptr, i.val, i.new, .const (createOrdering success),
          .const (createOrdering failure)]⟩]
        original := none
        uses := .compareExchange bytes i.val }
  | .fence ordering scope =>
    { calls := [⟨if scope = .singleThread then .atomicSignalFence else .atomicThreadFence,
        [.const (createOrdering ordering)]⟩]
      original := none
      uses := .call }

/-- The pass on one instruction: `runOnFunction` sorts the atomic instructions
from the plain accesses, and instruments the chosen ones of these. -/
def instrument (i : Instr) : Slot :=
  if isAtomic i.op then instrumentAtomic i
  else
    match i.op with
    | .load bytes align _ true => instrumentLoadOrStore false bytes align i
    | .store bytes align _ true => instrumentLoadOrStore true bytes align i
    | _ => { original := some i }

/-! ## The runtime -/

/-- The definitions of `sword_interface.inl`: each logs an access of a size and a
type (`SAVE_ACCESS`).  The functions for unaligned accesses, for fences and for
the other read-modify-writes are not defined. -/
def runtimeInterface : RuntimeFunction → Option (AccessSize × AccessType)
  | .read size => some (size, .unsafeRead)
  | .write size => some (size, .unsafeWrite)
  | .atomicLoad size => some (size, .atomicRead)
  | .atomicStore size => some (size, .atomicWrite)
  | .atomicRMW .add size => some (size, .atomicWrite)
  | .atomicRMW .sub size => some (size, .atomicWrite)
  | .atomicCAS size => some (size, .atomicWrite)
  | _ => none

section Machine

variable (lzo : Lzo) (hashCombine : UInt64 → UInt64 → UInt64)

/-- A call: it changes the state of the runtime and nothing else. -/
def RuntimeCall.exec (args : List Nat) (vals : List Value) (callerpc : UInt64) (tls : Tls)
    (c : RuntimeCall) : Option Tls :=
  (runtimeInterface c.function).map fun (asize, atype) =>
    let addr := ((c.args.head?.map (Operand.eval args vals)).getD 0)
    saveAccess lzo hashCombine asize atype (UInt64.ofNat addr) callerpc tls

/-- What the environment of a run decides: the return addresses of the calls, and
what is found in the register of the result after a function that returns
nothing. -/
structure Environment where
  callerpc : Nat → UInt64
  junk : Nat → Nat

/-- The state of a rewritten body. -/
structure Target extends Progress where
  tls : Tls

/-- One slot. -/
def Slot.step (args : List Nat) (env : Environment) (t : Target) (s : Slot) : Option Target :=
  let k := t.vals.length
  (s.calls.foldlM (RuntimeCall.exec lzo hashCombine args t.vals (env.callerpc k)) t.tls).map
    fun tls =>
      let (mem, own) := match s.original with
        | some i => i.exec args t.mem t.vals
        | none => (t.mem, {})
      let v := match s.uses with
        | .original => own
        | .call => { old := env.junk k }
        | .compareExchange bytes cmp =>
          ⟨env.junk k, env.junk k % 256 ^ bytes = cmp.eval args t.vals % 256 ^ bytes⟩
      { mem := mem, vals := t.vals ++ [v], tls := tls }

/-- The rewritten body from an initial memory. -/
def Body.runInstrumented (b : Body) (args : List Nat) (env : Environment) (tls : Tls)
    (mem : Memory) : Option Target :=
  (b.code.map instrument).foldlM (Slot.step lzo hashCombine args env) { mem := mem, tls := tls }

/-- The rewritten body ends, with the same user memory and the same values for
all uses as the original one. -/
def Preserved (b : Body) : Prop :=
  ∀ args env tls mem, ∃ t, b.runInstrumented lzo hashCombine args env tls mem = some t ∧
    t.mem = (b.run args mem).mem ∧ ∀ k ∈ b.uses, t.vals[k]? = (b.run args mem).vals[k]?

end Machine

/-! ## The instructions that are kept -/

/-- The pass leaves the instruction in place, and any function it calls exists: a
plain access (or an atomic one within a single thread) that is not chosen, has an
unusual size or passes the alignment test; an atomic instruction of an unusual
size; a read-modify-write without a function. -/
def Op.Kept : Op → Prop
  | .load bytes align atomic chosen =>
    getMemoryAccessFuncIndex bytes = none ∨
      (isAtomic (.load bytes align atomic chosen) = false ∧
        (chosen = false ∨ alignedAccess bytes align = true))
  | .store bytes align atomic chosen =>
    getMemoryAccessFuncIndex bytes = none ∨
      (isAtomic (.store bytes align atomic chosen) = false ∧
        (chosen = false ∨ alignedAccess bytes align = true))
  | .atomicRMW operation bytes _ =>
    getMemoryAccessFuncIndex bytes = none ∨ operation ∈ [.max, .min, .umax, .umin]
  | .cmpxchg bytes _ _ => getMemoryAccessFuncIndex bytes = none
  | .fence _ _ => False

variable {lzo : Lzo} {hashCombine : UInt64 → UInt64 → UInt64}

/-- A slot that leaves its instruction in place and calls only functions that
exist. -/
structure Slot.Transparent (s : Slot) (i : Instr) : Prop where
  original : s.original = some i
  uses : s.uses = .original
  calls : ∀ c ∈ s.calls, runtimeInterface c.function ≠ none

theorem transparent_untouched (i : Instr) : Slot.Transparent { original := some i } i :=
  ⟨rfl, rfl, fun _ hc => (List.not_mem_nil hc).elim⟩

theorem transparent_instrumentLoadOrStore {isWrite : Bool} {bytes align : Nat} (i : Instr)
    (h : getMemoryAccessFuncIndex bytes = none ∨ alignedAccess bytes align = true) :
    (instrumentLoadOrStore isWrite bytes align i).Transparent i := by
  unfold instrumentLoadOrStore
  cases hidx : getMemoryAccessFuncIndex bytes with
  | none => exact transparent_untouched i
  | some idx =>
    rcases h with h | h
    · rw [h] at hidx
      cases hidx
    · refine ⟨rfl, rfl, ?_⟩
      rw [h]
      intro c hc
      rw [List.mem_singleton.1 hc]
      cases isWrite <;> exact Option.some_ne_none _

theorem instrument_of_isAtomic {i : Instr} (h : isAtomic i.op = true) :
    instrument i = instrumentAtomic i := if_pos h

/-- A plain access, by the choice made for it. -/
theorem transparent_plain {i : Instr} (isWrite chosen : Bool) {bytes align : Nat} {s : Slot}
    (hs : s =
      if chosen then instrumentLoadOrStore isWrite bytes align i else { original := some i })
    (h : getMemoryAccessFuncIndex bytes = none ∨ chosen = false ∨
      alignedAccess bytes align = true) :
    s.Transparent i := by
  rw [hs]
  split
  · rename_i hc
    refine transparent_instrumentLoadOrStore i (h.imp_right fun h => h.resolve_left ?_)
    rw [hc]
    exact Bool.noConfusion
  · exact transparent_untouched i

/-- The pass on a kept instruction. -/
theorem transparent_instrument {i : Instr} (h : i.op.Kept) : (instrument i).Transparent i := by
  obtain ⟨op, ptr, val, new⟩ := i
  cases op with
  | load bytes align atomic chosen =>
    by_cases hatomic : isAtomic (.load bytes align atomic chosen) = true
    · have hidx := h.resolve_right fun h' => by
        rw [hatomic] at h'
        exact Bool.noConfusion h'.1
      rw [instrument_of_isAtomic hatomic, instrumentAtomic]
      dsimp only
      rw [hidx]
      exact transparent_untouched _
    · refine transparent_plain false chosen ?_ (h.imp_right And.right)
      rw [instrument, if_neg hatomic]
      cases chosen <;> rfl
  | store bytes align atomic chosen =>
    by_cases hatomic : isAtomic (.store bytes align atomic chosen) = true
    · have hidx := h.resolve_right fun h' => by
        rw [hatomic] at h'
        exact Bool.noConfusion h'.1
      rw [instrument_of_isAtomic hatomic, instrumentAtomic]
      dsimp only
      rw [hidx]
      exact transparent_untouched _
    · refine transparent_plain true chosen ?_ (h.imp_right And.right)
      rw [instrument, if_neg hatomic]
      cases chosen <;> rfl
  | atomicRMW operation bytes ordering =>
    rw [instrument_of_isAtomic rfl, instrumentAtomic]
    dsimp only
    cases hidx : getMemoryAccessFuncIndex bytes with
    | none => exact transparent_untouched _
    | some idx =>
      have hop := (show getMemoryAccessFuncIndex bytes = none ∨
        operation ∈ [.max, .min, .umax, .umin] from h).resolve_left (by rw [hidx]; simp)
      have hnull : swordAtomicRMW operation idx = none := by
        simp only [List.mem_cons, List.not_mem_nil, or_false] at hop
        rcases hop with rfl | rfl | rfl | rfl <;> rfl
      dsimp only
      rw [hnull]
      exact transparent_untouched _
  | cmpxchg bytes success failure =>
    have hidx : getMemoryAccessFuncIndex bytes = none := h
    rw [instrument_of_isAtomic rfl, instrumentAtomic]
    dsimp only
    rw [hidx]
    exact transparent_untouched _
  | fence ordering scope => exact h.elim

/-- Calls of functions that exist succeed. -/
theorem foldlM_calls (args : List Nat) (vals : List Value) (pc : UInt64) {calls : List RuntimeCall}
    (h : ∀ c ∈ calls, runtimeInterface c.function ≠ none) (tls : Tls) :
    ∃ tls', calls.foldlM (RuntimeCall.exec lzo hashCombine args vals pc) tls = some tls' := by
  induction calls generalizing tls with
  | nil => exact ⟨tls, rfl⟩
  | cons c cs ih =>
    obtain ⟨⟨asize, atype⟩, hf⟩ := Option.ne_none_iff_exists'.1 (h c List.mem_cons_self)
    rw [List.foldlM_cons, RuntimeCall.exec, hf]
    exact ih (fun d hd => h d (List.mem_cons_of_mem _ hd)) _

/-- A transparent slot does what its instruction does. -/
theorem Slot.Transparent.step {s : Slot} {i : Instr} (h : s.Transparent i) (lzo : Lzo)
    (hashCombine : UInt64 → UInt64 → UInt64) (args : List Nat)
    (env : Environment) (t : Target) :
    ∃ t', s.step lzo hashCombine args env t = some t' ∧
      t'.toProgress = i.step args t.toProgress := by
  obtain ⟨tls', hcalls⟩ : ∃ tls', s.calls.foldlM (RuntimeCall.exec lzo hashCombine args t.vals
      (env.callerpc t.vals.length)) t.tls = some tls' := foldlM_calls args t.vals _ h.calls t.tls
  rw [Slot.step, h.original, h.uses]
  dsimp only
  rw [hcalls]
  exact ⟨_, rfl, rfl⟩

/-- **The simulation.**  A body of kept instructions does the same after the pass. -/
theorem runInstrumented_of_kept {args : List Nat} {env : Environment} {code : List Instr}
    (h : ∀ i ∈ code, i.op.Kept) (t : Target) :
    ∃ t', (code.map instrument).foldlM (Slot.step lzo hashCombine args env) t = some t' ∧
      t'.toProgress = code.foldl (Instr.step args) t.toProgress := by
  induction code generalizing t with
  | nil => exact ⟨t, rfl, rfl⟩
  | cons i code ih =>
    obtain ⟨t', hstep, hprog⟩ := (transparent_instrument (h i List.mem_cons_self)).step lzo
      hashCombine args env t
    obtain ⟨t'', hrun, hprog'⟩ := ih (fun j hj => h j (List.mem_cons_of_mem _ hj)) t'
    refine ⟨t'', ?_, ?_⟩
    · rw [List.map_cons, List.foldlM_cons, hstep]
      exact hrun
    · rw [hprog', hprog, List.foldl_cons]

/-! ## The other instructions -/

/-- The number an instruction of the probe stores, combines or compares with. -/
def probeVal : Op → Nat
  | .cmpxchg _ _ _ => 0
  | _ => 1

/-- An instruction on address 0: it stores or combines 1, or exchanges 0 for 1. -/
def probeInstr (op : Op) : Instr := ⟨op, .const 0, .const (probeVal op), .const 1⟩

/-- The body of this instruction, which returns its value. -/
def probe (op : Op) : Body := ⟨[probeInstr op], some (.result 0)⟩

/-- A run of the probe from zero memory, in which the results of functions that
return nothing are 1. -/
def probeRun (lzo : Lzo) (hashCombine : UInt64 → UInt64 → UInt64) (op : Op) : Option Target :=
  (probe op).runInstrumented lzo hashCombine [] ⟨fun _ => 0, fun _ => 1⟩ onThreadBegin fun _ => 0

theorem probeRun_eq (op : Op) : probeRun lzo hashCombine op =
    (instrument (probeInstr op)).step lzo hashCombine [] ⟨fun _ => 0, fun _ => 1⟩
      { mem := fun _ => 0, tls := onThreadBegin } := by
  rw [probeRun, Body.runInstrumented, probe, List.map_singleton, List.foldlM_cons]
  simp

/-- A call of a function that does not exist. -/
theorem Slot.step_of_undefined {s : Slot} {c : RuntimeCall} (hs : s.calls = [c])
    (hc : runtimeInterface c.function = none) (args : List Nat) (env : Environment) (t : Target) :
    s.step lzo hashCombine args env t = none := by
  rw [Slot.step, hs, List.foldlM_cons, RuntimeCall.exec, hc]
  rfl

/-- Without its instruction a slot leaves memory alone. -/
theorem Slot.mem_of_original_none {s : Slot} (hs : s.original = none) {args : List Nat}
    {env : Environment} {t t' : Target} (h : s.step lzo hashCombine args env t = some t') :
    t'.mem = t.mem := by
  rw [Slot.step, hs] at h
  obtain ⟨tls, -, rfl⟩ := Option.map_eq_some_iff.1 h
  rfl

/-- Uses that refer to the call see what is in the register. -/
theorem Slot.vals_of_uses_call {s : Slot} (hs : s.uses = .call) {args : List Nat}
    {env : Environment} {t t' : Target} (h : s.step lzo hashCombine args env t = some t') :
    t'.vals = t.vals ++ [{ old := env.junk t.vals.length }] := by
  rw [Slot.step, hs] at h
  obtain ⟨tls, -, rfl⟩ := Option.map_eq_some_iff.1 h
  rfl

theorem bytes_of_index {bytes : Nat} (h : getMemoryAccessFuncIndex bytes ≠ none) :
    bytes = 1 ∨ bytes = 2 ∨ bytes = 4 ∨ bytes = 8 ∨ bytes = 16 := by
  unfold getMemoryAccessFuncIndex at h
  split at h <;> simp_all

/-- If the probe is preserved, it ends in the memory and with the value of the
original. -/
theorem probe_preserved {op : Op} (h : Preserved lzo hashCombine (probe op)) :
    ∃ t, probeRun lzo hashCombine op = some t ∧ t.mem = ((probe op).run [] fun _ => 0).mem ∧
      t.vals[0]? = ((probe op).run [] fun _ => 0).vals[0]? := by
  obtain ⟨t, ht, hmem, hvals⟩ := h [] ⟨fun _ => 0, fun _ => 1⟩ onThreadBegin fun _ => 0
  refine ⟨t, ht, hmem, hvals 0 ?_⟩
  simp [Body.uses, probe, Operand.instr?]

/-- An access that fails the alignment test. -/
theorem instrumentLoadOrStore_unaligned (isWrite : Bool) {bytes align : Nat} (i : Instr)
    (hidx : getMemoryAccessFuncIndex bytes ≠ none) (halign : alignedAccess bytes align ≠ true) :
    ∃ c, (instrumentLoadOrStore isWrite bytes align i).calls = [c] ∧
      runtimeInterface c.function = none := by
  obtain ⟨idx, hidx⟩ := Option.ne_none_iff_exists'.1 hidx
  unfold instrumentLoadOrStore
  rw [hidx]
  dsimp only
  rw [if_neg halign]
  cases isWrite <;> exact ⟨_, rfl, rfl⟩

/-- A probe that calls a function that does not exist does not end. -/
theorem not_preserved_of_undefined {op : Op} {c : RuntimeCall}
    (hs : (instrument (probeInstr op)).calls = [c]) (hc : runtimeInterface c.function = none) :
    ¬ Preserved lzo hashCombine (probe op) := by
  intro hp
  obtain ⟨t, ht, -, -⟩ := probe_preserved hp
  rw [probeRun_eq, Slot.step_of_undefined hs hc] at ht
  exact Option.some_ne_none t ht.symm

/-- A probe that loses its instruction leaves memory at zero. -/
theorem not_preserved_of_original_none {op : Op} (hs : (instrument (probeInstr op)).original = none)
    (hbyte : ((probe op).run [] fun _ => 0).mem (UInt64.ofNat 0) ≠ 0) :
    ¬ Preserved lzo hashCombine (probe op) := by
  intro hp
  obtain ⟨t, ht, hmem, -⟩ := probe_preserved hp
  rw [probeRun_eq] at ht
  rw [← hmem, Slot.mem_of_original_none hs ht] at hbyte
  exact hbyte rfl

theorem load_not_preserved {bytes align : Nat} {atomic : Option (AtomicOrdering × SyncScope)}
    {chosen : Bool} (h : ¬ (Op.load bytes align atomic chosen).Kept) :
    ¬ Preserved lzo hashCombine (probe (.load bytes align atomic chosen)) := by
  obtain ⟨hidx, hrest⟩ := not_or.1 h
  by_cases hatomic : isAtomic (.load bytes align atomic chosen) = true
  · -- the value is what the call left in the register
    intro hp
    obtain ⟨t, ht, -, hval⟩ := probe_preserved hp
    rw [probeRun_eq] at ht
    obtain ⟨idx, hsome⟩ := Option.ne_none_iff_exists'.1 hidx
    have huses : (instrument (probeInstr (.load bytes align atomic chosen))).uses = .call := by
      rw [instrument_of_isAtomic hatomic, instrumentAtomic, probeInstr]
      dsimp only
      rw [hsome]
    have hold : ((probe (.load bytes align atomic chosen)).run [] fun _ => 0).vals[0]? =
        some { old := Memory.load (fun _ => 0) bytes 0 } := rfl
    rw [Slot.vals_of_uses_call huses ht, hold, load_zero] at hval
    simp at hval
  · have hor := not_and.1 hrest (by simpa using hatomic)
    have hchosen : chosen = true := by simpa using fun hc => hor (Or.inl hc)
    subst hchosen
    obtain ⟨c, hcalls, hc⟩ := instrumentLoadOrStore_unaligned false
      (probeInstr (.load bytes align atomic true)) hidx fun ha => hor (Or.inr ha)
    refine not_preserved_of_undefined ?_ hc
    rw [instrument, probeInstr, if_neg hatomic]
    exact hcalls

theorem store_not_preserved {bytes align : Nat} {atomic : Option (AtomicOrdering × SyncScope)}
    {chosen : Bool} (h : ¬ (Op.store bytes align atomic chosen).Kept) :
    ¬ Preserved lzo hashCombine (probe (.store bytes align atomic chosen)) := by
  obtain ⟨hidx, hrest⟩ := not_or.1 h
  by_cases hatomic : isAtomic (.store bytes align atomic chosen) = true
  · obtain ⟨idx, hsome⟩ := Option.ne_none_iff_exists'.1 hidx
    refine not_preserved_of_original_none ?_ ?_
    · rw [instrument_of_isAtomic hatomic, instrumentAtomic, probeInstr]
      dsimp only
      rw [hsome]
    · have hmem : ((probe (.store bytes align atomic chosen)).run [] fun _ => 0).mem =
          Memory.store (fun _ => 0) bytes 0 1 := rfl
      rw [hmem]
      rcases bytes_of_index hidx with rfl | rfl | rfl | rfl | rfl <;> rw [store_self] <;> decide
  · have hor := not_and.1 hrest (by simpa using hatomic)
    have hchosen : chosen = true := by simpa using fun hc => hor (Or.inl hc)
    subst hchosen
    obtain ⟨c, hcalls, hc⟩ := instrumentLoadOrStore_unaligned true
      (probeInstr (.store bytes align atomic true)) hidx fun ha => hor (Or.inr ha)
    refine not_preserved_of_undefined ?_ hc
    rw [instrument, probeInstr, if_neg hatomic]
    exact hcalls

theorem atomicRMW_not_preserved {operation : BinOp} {bytes : Nat} {ordering : AtomicOrdering}
    (h : ¬ (Op.atomicRMW operation bytes ordering).Kept) :
    ¬ Preserved lzo hashCombine (probe (.atomicRMW operation bytes ordering)) := by
  obtain ⟨hidx, hop⟩ := not_or.1 h
  obtain ⟨idx, hsome⟩ := Option.ne_none_iff_exists'.1 hidx
  obtain ⟨f, hf⟩ : ∃ f, swordAtomicRMW operation idx = some f := by
    cases operation with
    | max | min | umax | umin => exact absurd (by simp) hop
    | xchg | add | sub | and | nand | or | xor => exact ⟨_, rfl⟩
  have hslot : instrument (probeInstr (.atomicRMW operation bytes ordering)) =
      { calls := [⟨f, [.const 0, .const 1, .const (createOrdering ordering)]⟩]
        original := none
        uses := .call } := by
    rw [instrument_of_isAtomic rfl, instrumentAtomic]
    show (match getMemoryAccessFuncIndex bytes with | none => _ | some idx => _) = _
    rw [hsome]
    dsimp only
    rw [hf]
    rfl
  have hmem : ((probe (.atomicRMW operation bytes ordering)).run [] fun _ => 0).mem =
      Memory.store (fun _ => 0) bytes 0 (operation.apply
        (BitVec.ofNat (8 * bytes) (Memory.load (fun _ => 0) bytes 0))
        (BitVec.ofNat (8 * bytes) 1)).toNat := rfl
  cases operation with
  | add | sub =>
    refine not_preserved_of_original_none (by rw [hslot]) ?_
    rw [hmem, load_zero]
    rcases bytes_of_index hidx with rfl | rfl | rfl | rfl | rfl <;> rw [store_self] <;> decide
  | xchg | and | nand | or | xor =>
    refine not_preserved_of_undefined (congrArg Slot.calls hslot) ?_
    cases hf
    rfl
  | max | min | umax | umin => cases hf

theorem cmpxchg_not_preserved {bytes : Nat} {success failure : AtomicOrdering}
    (h : ¬ (Op.cmpxchg bytes success failure).Kept) :
    ¬ Preserved lzo hashCombine (probe (.cmpxchg bytes success failure)) := by
  have hidx : getMemoryAccessFuncIndex bytes ≠ none := h
  obtain ⟨idx, hsome⟩ := Option.ne_none_iff_exists'.1 hidx
  refine not_preserved_of_original_none ?_ ?_
  · rw [instrument_of_isAtomic rfl, instrumentAtomic]
    show Slot.original (match getMemoryAccessFuncIndex bytes with | none => _ | some idx => _) = _
    rw [hsome]
  · have hload := load_zero bytes 0
    have hmem : ((probe (.cmpxchg bytes success failure)).run [] fun _ => 0).mem =
        ((Op.cmpxchg bytes success failure).exec (fun _ => 0) 0 0 1).1 := rfl
    have hexec : ((Op.cmpxchg bytes success failure).exec (fun _ => 0) 0 0 1).1 =
        Memory.store (fun _ => 0) bytes 0 1 := by
      show (if Memory.load (fun _ => 0) bytes 0 = 0 % 256 ^ bytes then _ else _ :
        Memory × Value).1 = _
      rw [if_pos (by rw [hload, Nat.zero_mod])]
    rw [hmem, hexec]
    rcases bytes_of_index hidx with rfl | rfl | rfl | rfl | rfl <;> rw [store_self] <;> decide

theorem fence_not_preserved (ordering : AtomicOrdering) (scope : SyncScope) :
    ¬ Preserved lzo hashCombine (probe (.fence ordering scope)) := by
  refine not_preserved_of_undefined (c := ⟨if scope = .singleThread then .atomicSignalFence
    else .atomicThreadFence, [.const (createOrdering ordering)]⟩) rfl ?_
  dsimp only
  split <;> rfl

/-- The pass changes what the probe of an instruction does that is not kept. -/
theorem not_preserved {op : Op} (h : ¬ op.Kept) : ¬ Preserved lzo hashCombine (probe op) := by
  cases op with
  | load => exact load_not_preserved h
  | store => exact store_not_preserved h
  | atomicRMW => exact atomicRMW_not_preserved h
  | cmpxchg => exact cmpxchg_not_preserved h
  | fence ordering scope => exact fence_not_preserved ordering scope

/-! ## When instrumentation preserves the meaning -/

/-- **Which instructions can be instrumented.**  All bodies built from a set of
instructions keep their meaning exactly if every instruction of the set is
kept: atomic instructions of the usual sizes, fences and chosen accesses that
fail the alignment test are not. -/
theorem preserved_iff (lzo : Lzo) (hashCombine : UInt64 → UInt64 → UInt64) (K : Set Op) :
    (∀ b : Body, (∀ i ∈ b.code, i.op ∈ K) → Preserved lzo hashCombine b) ↔
      ∀ op ∈ K, op.Kept := by
  constructor
  · intro h op hop
    by_contra hkept
    refine not_preserved hkept (h (probe op) ?_)
    intro i hi
    rw [probe, List.mem_singleton] at hi
    rw [hi]
    exact hop
  · intro h b hb args env tls mem
    obtain ⟨t, hrun, hprog⟩ := @runInstrumented_of_kept lzo hashCombine args env b.code
      (fun i hi => h i.op (hb i hi)) { mem := mem, tls := tls }
    refine ⟨t, hrun, ?_, ?_⟩
    · rw [Body.run, ← hprog]
    · intro k _
      rw [Body.run, ← hprog]

/-- An atomic increment of a counter of four bytes. -/
def atomicIncrement : Body :=
  ⟨[⟨.atomicRMW .add 4 .sequentiallyConsistent, .const 4096, .const 1, .const 0⟩], none⟩

/-- After the pass the increment is only logged: the counter stays 0. -/
theorem atomicIncrement_not_preserved :
    ¬ Preserved Lzo.stored boostHashCombine atomicIncrement := by
  intro hp
  obtain ⟨t, ht, hmem, -⟩ := hp [] ⟨fun _ => 0, fun _ => 0⟩ onThreadBegin fun _ => 0
  have hrun : atomicIncrement.runInstrumented Lzo.stored boostHashCombine []
      ⟨fun _ => 0, fun _ => 0⟩ onThreadBegin (fun _ => 0) =
      Slot.step Lzo.stored boostHashCombine [] ⟨fun _ => 0, fun _ => 0⟩
        { mem := fun _ => 0, tls := onThreadBegin }
        ⟨[⟨.atomicRMW .add .size4, [.const 4096, .const 1, .const 5]⟩], none, .call⟩ := by
    rw [Body.runInstrumented, atomicIncrement, List.map_singleton, List.foldlM_cons]
    simp
    rfl
  rw [hrun] at ht
  have hbyte : (atomicIncrement.run [] fun _ => 0).mem (UInt64.ofNat 4096) = 1 := by
    have hrun : (atomicIncrement.run [] fun _ => 0).mem =
        ((Op.atomicRMW .add 4 .sequentiallyConsistent).exec (fun _ => 0) 4096 1 0).1 := rfl
    rw [hrun, Op.exec]
    dsimp only
    rw [load_zero, store_self]
    decide
  rw [← hmem, Slot.mem_of_original_none rfl ht] at hbyte
  exact absurd hbyte (by decide)

end Transforms
end Sword
