import Sword.Lib.Bytes

/-!
# Straight-line programs over byte memory

What the instrumentation pass rewrites: bodies built from plain and atomic loads
and stores, atomic read-modify-writes, compare-exchanges and fences, with the
operands in single assignment form.  One thread runs them, so orderings and
scopes have no effect of their own; the pass looks at them all the same.

* `Memory` — user memory, byte by byte, with little-endian loads and stores.
* `Op`, `Instr`, `Body` — the instructions under LLVM's names.
* `Op.exec` — what an instruction does to memory and the value it yields.
* `Body.run` — the memory and the values of all instructions after a body.
-/

namespace Sword
namespace Transforms

open Bytes

/-! ## Memory -/

/-- User memory, byte by byte. -/
abbrev Memory := UInt64 → UInt8

/-- The bytes from an address on. -/
def readBytes (m : Memory) (a : UInt64) : Nat → List UInt8
  | 0 => []
  | n + 1 => m a :: readBytes m (a + 1) n

/-- Memory with the bytes from an address on overwritten. -/
def writeBytes (m : Memory) (a : UInt64) : List UInt8 → Memory
  | [] => m
  | b :: bs => Function.update (writeBytes m (a + 1) bs) a b

/-- The number at an address. -/
def Memory.load (m : Memory) (bytes a : Nat) : Nat :=
  ofLeBytes (readBytes m (UInt64.ofNat a) bytes)

/-- Memory after a number is stored at an address. -/
def Memory.store (m : Memory) (bytes a v : Nat) : Memory :=
  writeBytes m (UInt64.ofNat a) (leBytes bytes v)

/-- The first byte stored. -/
theorem store_self (m : Memory) (bytes a v : Nat) :
    m.store (bytes + 1) a v (UInt64.ofNat a) = UInt8.ofNat v := by
  rw [Memory.store, leBytes, writeBytes, Function.update_self]

theorem load_zero (bytes a : Nat) : Memory.load (fun _ => 0) bytes a = 0 := by
  have hread : ∀ (n : Nat) (a : UInt64), ofLeBytes (readBytes (fun _ => 0) a n) = 0 := by
    intro n
    induction n with
    | zero => exact fun _ => rfl
    | succ n ih =>
      intro a
      rw [readBytes, ofLeBytes, ih]
      rfl
  exact hread bytes _

/-! ## Instructions -/

/-- `AtomicOrdering`, without `NotAtomic`. -/
inductive AtomicOrdering
  | unordered | monotonic | acquire | release | acquireRelease | sequentiallyConsistent
  deriving DecidableEq, Repr

/-- `SyncScope`. -/
inductive SyncScope
  | singleThread | system
  deriving DecidableEq, Repr

/-- `AtomicRMWInst::BinOp`. -/
inductive BinOp
  | xchg | add | sub | and | nand | or | xor | max | min | umax | umin
  deriving DecidableEq, Repr

/-- An instruction without its operands.  Sizes are store sizes in bytes; `chosen`
is the answer of `chooseInstructionsToInstrument`. -/
inductive Op
  | load (bytes align : Nat) (atomic : Option (AtomicOrdering × SyncScope)) (chosen : Bool)
  | store (bytes align : Nat) (atomic : Option (AtomicOrdering × SyncScope)) (chosen : Bool)
  | atomicRMW (operation : BinOp) (bytes : Nat) (ordering : AtomicOrdering)
  | cmpxchg (bytes : Nat) (success failure : AtomicOrdering)
  | fence (ordering : AtomicOrdering) (scope : SyncScope)
  deriving DecidableEq, Repr

/-- An operand: a constant, an argument of the function, or the value of an
earlier instruction (the number, or the flag of a compare-exchange). -/
inductive Operand
  | const (v : Nat)
  | arg (i : Nat)
  | result (i : Nat)
  | success (i : Nat)
  deriving DecidableEq, Repr

/-- An instruction: `val` is the value stored, the operand of a
read-modify-write, or the value compared with; `new` is the new value of a
compare-exchange. -/
structure Instr where
  op : Op
  ptr : Operand
  val : Operand := .const 0
  new : Operand := .const 0
  deriving DecidableEq, Repr

/-- The operands an instruction uses. -/
def Instr.operands (i : Instr) : List Operand :=
  match i.op with
  | .load _ _ _ _ => [i.ptr]
  | .store _ _ _ _ => [i.ptr, i.val]
  | .atomicRMW _ _ _ => [i.ptr, i.val]
  | .cmpxchg _ _ _ => [i.ptr, i.val, i.new]
  | .fence _ _ => []

/-- A function body. -/
structure Body where
  code : List Instr
  ret : Option Operand := none
  deriving DecidableEq, Repr

/-- The instruction an operand refers to. -/
def Operand.instr? : Operand → Option Nat
  | .result i => some i
  | .success i => some i
  | _ => none

/-- The instructions whose values are used. -/
def Body.uses (b : Body) : List Nat :=
  (b.code.flatMap Instr.operands ++ b.ret.toList).filterMap Operand.instr?

/-! ## What they do -/

/-- The value of an instruction. -/
structure Value where
  old : Nat := 0
  success : Bool := false
  deriving DecidableEq, Repr

/-- The number an operand stands for, given the arguments and the values so far. -/
def Operand.eval (args : List Nat) (vals : List Value) : Operand → Nat
  | .const v => v
  | .arg i => args.getD i 0
  | .result i => (vals.getD i {}).old
  | .success i => (vals.getD i {}).success.toNat

/-- The operation of a read-modify-write. -/
def BinOp.apply {w : Nat} (old v : BitVec w) : BinOp → BitVec w
  | .xchg => v
  | .add => old + v
  | .sub => old - v
  | .and => old &&& v
  | .nand => ~~~(old &&& v)
  | .or => old ||| v
  | .xor => old ^^^ v
  | .max => if v.slt old then old else v
  | .min => if old.slt v then old else v
  | .umax => if v.ult old then old else v
  | .umin => if old.ult v then old else v

/-- What an instruction does to memory, and its value. -/
def Op.exec (m : Memory) (ptr val new : Nat) : Op → Memory × Value
  | .load bytes _ _ _ => (m, { old := m.load bytes ptr })
  | .store bytes _ _ _ => (m.store bytes ptr val, {})
  | .atomicRMW operation bytes _ =>
    let old := m.load bytes ptr
    let w := 8 * bytes
    (m.store bytes ptr (operation.apply (BitVec.ofNat w old) (BitVec.ofNat w val)).toNat,
      { old := old })
  | .cmpxchg bytes _ _ =>
    let old := m.load bytes ptr
    if old = val % 256 ^ bytes then (m.store bytes ptr new, { old := old, success := true })
    else (m, { old := old })
  | .fence _ _ => (m, {})

/-- An instruction, with its operands evaluated. -/
def Instr.exec (args : List Nat) (m : Memory) (vals : List Value) (i : Instr) : Memory × Value :=
  i.op.exec m (i.ptr.eval args vals) (i.val.eval args vals) (i.new.eval args vals)

/-- Memory and the values of the instructions executed. -/
structure Progress where
  mem : Memory
  vals : List Value := []

/-- One instruction. -/
def Instr.step (args : List Nat) (s : Progress) (i : Instr) : Progress :=
  let (mem, v) := i.exec args s.mem s.vals
  ⟨mem, s.vals ++ [v]⟩

/-- A body from an initial memory. -/
def Body.run (b : Body) (args : List Nat) (mem : Memory) : Progress :=
  b.code.foldl (Instr.step args) ⟨mem, []⟩

end Transforms
end Sword
