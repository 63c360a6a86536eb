import Sword.Lib.Progression
import Sword.Tools.Loader
import Sword.Tools.Rbtree

/-!
# The interval tree: `interval_tree_generic.h`

A node stands for the accesses of one size, type, program counter and lockset at
the addresses of an arithmetic progression.  Insertion lets the nodes of the
search path take an access in, if it continues their progression; merging two
trees folds progressions of one difference.

* `IntervalTreeNode`, `END` — the nodes.
* `coalesce` / `insertData` — `interval_tree_insert_data`.
* `foldNode` / `merge` — `interval_tree_merge`.
* `addresses`, `WellFormed`, `Compact` — what a node stands for, and what it is meant
  to be.
* `Coalesced`, `Folded` — what a visit of `coalesce` and of `foldNode` can do.
* `Fits`, `Kept` — when a node takes an access in without wrapping around, and
  without losing it; `coalesce_stop`.
* `Foldable` — when two nodes are folded without mixing residues; `foldNode_stop`.
* `insertStep_descended`, `mergeNode_descended` — which node a call changes.
-/

namespace Sword
namespace Tools

open Progression

/-! ## The nodes -/

/-- `struct interval_tree_node`, without the links and `__subtree_last`, which belong
to the tree. -/
structure IntervalTreeNode where
  start : UInt64
  last : UInt64
  count : UInt32
  /-- The size in the high four bits, the type in the low four. -/
  sizeType : UInt8
  diff : UInt32
  pc : UInt64
  mutex : Finset UInt64
  deriving DecidableEq

/-- The constructor `interval_tree_node(s, l, st, p, mtx)`. -/
def IntervalTreeNode.make (s l : UInt64) (st : UInt8) (p : UInt64) (mtx : Finset UInt64) :
    IntervalTreeNode := ⟨s, l, 1, st, 0, p, mtx⟩

/-- `END(node)`: the product is one of 32-bit numbers. -/
def IntervalTreeNode.END (n : IntervalTreeNode) : UInt64 :=
  n.start + (n.diff * (n.count - 1)).toUInt64

/-- `_compute_subtree_last`. -/
def computeSubtreeLast (n : IntervalTreeNode) (left right : Option UInt64) : UInt64 :=
  let max := match left with
    | some l => if n.last < l then l else n.last
    | none => n.last
  match right with
  | some r => if max < r then r else max
  | none => max

/-- An interval tree; the augmented value is `__subtree_last`. -/
abbrev IntervalTree := Rbtree IntervalTreeNode UInt64

/-- The test on size, type, program counter and lockset. -/
def SameKey (n m : IntervalTreeNode) : Prop :=
  n.sizeType = m.sizeType ∧ n.pc = m.pc ∧ n.mutex = m.mutex

instance (n m : IntervalTreeNode) : Decidable (SameKey n m) :=
  inferInstanceAs (Decidable (_ ∧ _ ∧ _))

/-- The side on which a descent for a node goes on. -/
def goLeft (n parent : IntervalTreeNode) : Bool := n.start < parent.start

/-- What a descent does to `__subtree_last`. -/
def raise (last subtreeLast : UInt64) : UInt64 := if subtreeLast < last then last else subtreeLast

/-! ## Insertion -/

/-- `parent->count++; parent->last = END(parent);` -/
def IntervalTreeNode.grow (parent : IntervalTreeNode) : IntervalTreeNode :=
  let grown := { parent with count := parent.count + 1 }
  { grown with last := grown.END }

/-- The three tests against a progression, whose last element is `e`. -/
def tryExtend (n : IntervalTreeNode) (e : UInt64) (parent : IntervalTreeNode) :
    Option IntervalTreeNode :=
  if n.start = e + parent.diff.toUInt64 then some parent.grow
  else if parent.start ≤ n.start ∧ n.start ≤ e then some parent
  else if n.start = parent.start - parent.diff.toUInt64 then
    some { parent with start := n.start, count := parent.count + 1 }
  else none

/-- What `interval_tree_insert_data` does at a node of its descent. -/
def coalesce (n parent : IntervalTreeNode) : Visit IntervalTreeNode :=
  if SameKey n parent then
    if parent.diff ≠ 0 then
      match tryExtend n parent.END parent with
      | some p => .stop p
      | none => .descend parent
    else
      let diff := n.start - parent.start
      if diff ≠ 0 ∧ diff < 64 then
        let parent' := { parent with diff := diff.toUInt32 }
        match tryExtend n parent.END parent' with
        | some p => .stop p
        | none => .descend parent'
      else .stop parent
  else .descend parent

/-- `interval_tree_insert_data`. -/
def insertData (n : IntervalTreeNode) (root : IntervalTree) : IntervalTree :=
  descend computeSubtreeLast (coalesce n) (goLeft n) (raise n.last)
    (.make n.start n.last n.sizeType n.pc n.mutex) n.last [] root

/-- The node a call of the loader inserts. -/
def InsertCall.node (c : InsertCall) : IntervalTreeNode :=
  .make c.address c.address c.sizeType c.pc c.mutex

/-- One call of the loader. -/
def insertStep (root : IntervalTree) (c : InsertCall) : IntervalTree := insertData c.node root

/-! ## Merging -/

/-- The parent with other ends, and `count` computed from them. -/
def IntervalTreeNode.refold (parent : IntervalTreeNode) (start last : UInt64) :
    IntervalTreeNode :=
  { parent with
    start := start
    last := last
    count := if parent.diff ≠ 0 then ((last - start) / parent.diff.toUInt64 + 1).toUInt32 else 1 }

/-- What `interval_tree_merge` does at a node of its descent. -/
def foldNode (n parent : IntervalTreeNode) : Visit IntervalTreeNode :=
  if SameKey n parent ∧ n.diff = parent.diff then
    if ¬ (n.count = parent.count ∧ parent.count = 1) then
      if parent.start - n.last = parent.diff.toUInt64 then
        .stop (parent.refold n.start parent.last)
      else if n.start - parent.last = parent.diff.toUInt64 then
        .stop (parent.refold parent.start n.last)
      else if n.start ≤ parent.last ∧ parent.start ≤ n.last then
        .stop (parent.refold (if parent.start < n.start then parent.start else n.start)
          (if parent.last < n.last then n.last else parent.last))
      else .descend parent
    else if parent.start = n.start then .stop parent
    else .descend parent
  else .descend parent

/-- One node of `tree2`.  When `tree1` is empty the new node is linked to a parent
that was never set: `none`. -/
def mergeNode (tree1 : IntervalTree) (n : IntervalTreeNode) : Option IntervalTree :=
  match tree1 with
  | .nil => none
  | tree1 => some (descend computeSubtreeLast (foldNode n) (goLeft n) (raise n.last)
      (.make n.start n.last n.sizeType n.pc n.mutex) n.last [] tree1)

/-- `interval_tree_merge`: the nodes of `tree2` from `rb_last` on, each erased from
it. -/
def merge (tree1 tree2 : IntervalTree) : Option IntervalTree :=
  tree2.toList.reverse.foldlM mergeNode tree1

/-! ## What a node stands for -/

namespace IntervalTreeNode

/-- The addresses a node stands for. -/
def addresses (n : IntervalTreeNode) : Set ℕ :=
  progression n.start.toNat n.diff.toNat n.count.toNat

/-- The fields of a node belong together, and the progression does not wrap around. -/
structure WellFormed (n : IntervalTreeNode) : Prop where
  count_pos : 0 < n.count.toNat
  diff_eq_zero : n.diff = 0 ↔ n.count = 1
  last_eq : n.start.toNat + n.diff.toNat * (n.count.toNat - 1) = n.last.toNat

/-- The product in `END` does not wrap around either. -/
structure Compact (n : IntervalTreeNode) : Prop extends n.WellFormed where
  fits : n.diff.toNat * (n.count.toNat - 1) < 2 ^ 32

theorem compact_make (s : UInt64) (st : UInt8) (p : UInt64) (mtx : Finset UInt64) :
    (make s s st p mtx).Compact :=
  ⟨⟨Nat.one_pos, iff_of_true rfl rfl, rfl⟩, by norm_num [make]⟩

theorem addresses_make (s l : UInt64) (st : UInt8) (p : UInt64) (mtx : Finset UInt64) :
    (make s l st p mtx).addresses = {s.toNat} := by
  rw [addresses, make]
  exact progression_one

variable {n parent : IntervalTreeNode}

/-- The product in `END`, where it does not wrap around. -/
theorem toNat_span (hc : 0 < n.count.toNat) (hfits : n.diff.toNat * (n.count.toNat - 1) < 2 ^ 32) :
    (n.diff * (n.count - 1)).toNat = n.diff.toNat * (n.count.toNat - 1) := by
  have hle : (1 : UInt32) ≤ n.count := UInt32.le_iff_toNat_le.2 hc
  have hcount : (n.count - 1).toNat = n.count.toNat - 1 := UInt32.toNat_sub_of_le _ _ hle
  rw [UInt32.toNat_mul, hcount, Nat.mod_eq_of_lt hfits]

/-- `END` is the last element. -/
theorem Compact.END_eq (h : n.Compact) : n.END = n.last := by
  have hprod := toNat_span h.count_pos h.fits
  have hlt := n.last.toNat_lt
  rw [← UInt64.toNat_inj, END, UInt64.toNat_add, UInt32.toNat_toUInt64, hprod, h.last_eq,
    Nat.mod_eq_of_lt hlt]

theorem WellFormed.start_le_last (h : n.WellFormed) : n.start.toNat ≤ n.last.toNat := by
  rw [← h.last_eq]
  exact Nat.le_add_right _ _

/-- One element more fits. -/
def Grows (n : IntervalTreeNode) : Prop :=
  n.diff.toNat * n.count.toNat < 2 ^ 32 ∧ n.count.toNat + 1 < 2 ^ 32

instance (n : IntervalTreeNode) : Decidable n.Grows := inferInstanceAs (Decidable (_ ∧ _))

/-- A node that has grown by one element has a positive difference and more than one
element. -/
theorem wellFormed_of_grown (hd : n.diff ≠ 0) (hc : 1 < n.count.toNat)
    (hlast : n.start.toNat + n.diff.toNat * (n.count.toNat - 1) = n.last.toNat) :
    n.WellFormed := by
  refine ⟨by omega, iff_of_false hd ?_, hlast⟩
  intro h
  rw [h] at hc
  exact absurd hc (by decide)

theorem toNat_count_succ (hg : parent.Grows) :
    (parent.count + 1).toNat = parent.count.toNat + 1 := by
  rw [UInt32.toNat_add]
  exact Nat.mod_eq_of_lt hg.2

/-- The steps of a progression, and one more. -/
theorem mul_pred_add (hc : 0 < parent.count.toNat) :
    parent.diff.toNat * (parent.count.toNat - 1) + parent.diff.toNat =
      parent.diff.toNat * parent.count.toNat := by
  rw [← Nat.mul_succ, Nat.succ_eq_add_one, Nat.sub_add_cancel hc]

/-- One element more at the end. -/
theorem grow_last (hd : parent.diff ≠ 0) (hc : 0 < parent.count.toNat)
    (hlast : parent.start.toNat + parent.diff.toNat * (parent.count.toNat - 1) = parent.last.toNat)
    (hg : parent.Grows) {a : UInt64} (ha : a = parent.last + parent.diff.toUInt64)
    (hle : parent.last ≤ a) :
    parent.grow.Compact ∧ parent.grow.addresses = insert a.toNat parent.addresses := by
  have hcount : parent.grow.count.toNat = parent.count.toNat + 1 := toNat_count_succ hg
  have hmul := mul_pred_add hc
  have hnat : a.toNat = parent.last.toNat + parent.diff.toNat := by
    have hlt := parent.last.toNat_lt
    have hdlt := parent.diff.toNat_lt
    rw [UInt64.le_iff_toNat_le] at hle
    rw [ha, UInt64.toNat_add, UInt32.toNat_toUInt64] at hle ⊢
    omega
  have haddr : a.toNat = parent.start.toNat + parent.diff.toNat * parent.count.toNat := by omega
  have hEND : parent.grow.last = a := by
    have hsub : (parent.count + 1 - 1 : UInt32) = parent.count := by simp
    show parent.start + (parent.diff * (parent.count + 1 - 1)).toUInt64 = a
    have halt := a.toNat_lt
    rw [hsub, ← UInt64.toNat_inj, UInt64.toNat_add, UInt32.toNat_toUInt64, UInt32.toNat_mul,
      Nat.mod_eq_of_lt hg.1, ← haddr, Nat.mod_eq_of_lt halt]
  constructor
  · refine ⟨wellFormed_of_grown hd (by omega) ?_, ?_⟩
    · rw [hcount, hEND, Nat.add_sub_cancel]
      exact haddr.symm
    · rw [hcount, Nat.add_sub_cancel]
      exact hg.1
  · rw [addresses, hcount, haddr]
    exact progression_succ

/-- One element more at the beginning. -/
theorem grow_start (hd : parent.diff ≠ 0) (hwf : parent.WellFormed) (hg : parent.Grows)
    {a : UInt64} (ha : a = parent.start - parent.diff.toUInt64) (hle : a ≤ parent.start) :
    let p : IntervalTreeNode := { parent with start := a, count := parent.count + 1 }
    p.Compact ∧ p.addresses = insert a.toNat parent.addresses := by
  intro p
  have hcount : p.count.toNat = parent.count.toNat + 1 := toNat_count_succ hg
  have hc := hwf.count_pos
  have hmul := mul_pred_add hc
  have hds : parent.diff.toNat ≤ parent.start.toNat := by
    have hlt := parent.start.toNat_lt
    have hdlt := parent.diff.toNat_lt
    have hd0 : 0 < parent.diff.toNat :=
      Nat.pos_of_ne_zero fun h => hd (UInt32.toNat_inj.1 (h.trans rfl))
    rw [UInt64.le_iff_toNat_le, ha, UInt64.toNat_sub, UInt32.toNat_toUInt64] at hle
    omega
  have hnat : a.toNat = parent.start.toNat - parent.diff.toNat := by
    have hle' : parent.diff.toUInt64 ≤ parent.start := by
      rw [UInt64.le_iff_toNat_le, UInt32.toNat_toUInt64]
      exact hds
    rw [ha, UInt64.toNat_sub_of_le _ _ hle', UInt32.toNat_toUInt64]
  constructor
  · refine ⟨wellFormed_of_grown hd (by omega) ?_, ?_⟩
    · have hlast := hwf.last_eq
      rw [hcount, Nat.add_sub_cancel]
      show a.toNat + parent.diff.toNat * parent.count.toNat = parent.last.toNat
      omega
    · rw [hcount, Nat.add_sub_cancel]
      exact hg.1
  · rw [addresses, hcount]
    show progression a.toNat _ _ = _
    rw [hnat]
    exact progression_pred hds

end IntervalTreeNode

open IntervalTreeNode

variable {n parent p : IntervalTreeNode}

/-- The parent has become `p` and has taken in some of the addresses. -/
structure Absorbed (new : Set ℕ) (parent p : IntervalTreeNode) : Prop where
  key : SameKey p parent
  keeps : parent.addresses ⊆ p.addresses
  sound : p.addresses ⊆ parent.addresses ∪ new

theorem absorbed_refl (parent : IntervalTreeNode) (new : Set ℕ) : Absorbed new parent parent :=
  ⟨⟨rfl, rfl, rfl⟩, subset_rfl, Set.subset_union_left⟩

/-- The parent has taken in one address. -/
theorem absorbed_insert {a : ℕ} (hkey : SameKey p parent)
    (h : p.addresses = insert a parent.addresses) : Absorbed {a} parent p := by
  refine ⟨hkey, ?_, ?_⟩
  · rw [h]
    exact Set.subset_insert a _
  · rw [h, Set.union_singleton]

/-! ## Insertion at a node -/

/-- A node without a difference ends at its start. -/
theorem END_of_diff_eq_zero (hd : parent.diff = 0) : parent.END = parent.start := by
  simp [IntervalTreeNode.END, hd]

/-- The difference of two starts less than 64 bytes apart is not truncated. -/
theorem toUInt64_diff (hlt : n.start - parent.start < 64) :
    (n.start - parent.start).toUInt32.toUInt64 = n.start - parent.start := by
  have hlt : (n.start - parent.start).toNat < 64 := hlt
  rw [← UInt64.toNat_inj, UInt32.toNat_toUInt64, UInt64.toNat_toUInt32]
  exact Nat.mod_eq_of_lt (by omega)

/-- A second element near by is always one step away from the first. -/
theorem tryExtend_near (hd : parent.diff = 0) (hlt : n.start - parent.start < 64) :
    tryExtend n parent.END { parent with diff := (n.start - parent.start).toUInt32 } =
      some (IntervalTreeNode.grow { parent with diff := (n.start - parent.start).toUInt32 }) := by
  rw [tryExtend, if_pos]
  rw [END_of_diff_eq_zero hd, toUInt64_diff hlt]
  simp

/-- What a visit of an insertion does at a node: the branches of `coalesce`. -/
inductive Coalesced (n parent : IntervalTreeNode) : Visit IntervalTreeNode → Prop
  | otherKey : ¬ SameKey n parent → Coalesced n parent (.descend parent)
  | second : SameKey n parent → parent.diff = 0 → n.start - parent.start ≠ 0 →
      n.start - parent.start < 64 → Coalesced n parent
        (.stop (.grow { parent with diff := (n.start - parent.start).toUInt32 }))
  | far : SameKey n parent → parent.diff = 0 →
      n.start = parent.start ∨ 64 ≤ n.start - parent.start → Coalesced n parent (.stop parent)
  | append : SameKey n parent → parent.diff ≠ 0 →
      n.start = parent.END + parent.diff.toUInt64 → Coalesced n parent (.stop parent.grow)
  | inRange : SameKey n parent → parent.diff ≠ 0 →
      n.start ≠ parent.END + parent.diff.toUInt64 →
      parent.start ≤ n.start ∧ n.start ≤ parent.END → Coalesced n parent (.stop parent)
  | prepend : SameKey n parent → parent.diff ≠ 0 →
      n.start ≠ parent.END + parent.diff.toUInt64 →
      ¬ (parent.start ≤ n.start ∧ n.start ≤ parent.END) →
      n.start = parent.start - parent.diff.toUInt64 → Coalesced n parent
        (.stop { parent with start := n.start, count := parent.count + 1 })
  | pass : SameKey n parent → parent.diff ≠ 0 →
      n.start ≠ parent.END + parent.diff.toUInt64 →
      ¬ (parent.start ≤ n.start ∧ n.start ≤ parent.END) →
      n.start ≠ parent.start - parent.diff.toUInt64 → Coalesced n parent (.descend parent)

theorem coalesced (n parent : IntervalTreeNode) : Coalesced n parent (coalesce n parent) := by
  rw [coalesce]
  by_cases hkey : SameKey n parent
  swap
  · rw [if_neg hkey]
    exact .otherKey hkey
  rw [if_pos hkey]
  by_cases hd : parent.diff = 0
  · rw [if_neg (not_not.2 hd)]
    dsimp only
    by_cases hnear : n.start - parent.start ≠ 0 ∧ n.start - parent.start < 64
    · rw [if_pos hnear, tryExtend_near hd hnear.2]
      exact .second hkey hd hnear.1 hnear.2
    · rw [if_neg hnear]
      rw [not_and_or, not_not, UInt64.not_lt] at hnear
      exact .far hkey hd (hnear.imp_left sub_eq_zero.1)
  · rw [if_pos hd, tryExtend]
    by_cases happend : n.start = parent.END + parent.diff.toUInt64
    · rw [if_pos happend]
      exact .append hkey hd happend
    · rw [if_neg happend]
      by_cases hrange : parent.start ≤ n.start ∧ n.start ≤ parent.END
      · rw [if_pos hrange]
        exact .inRange hkey hd happend hrange
      · rw [if_neg hrange]
        by_cases hprepend : n.start = parent.start - parent.diff.toUInt64
        · rw [if_pos hprepend]
          exact .prepend hkey hd happend hrange hprepend
        · rw [if_neg hprepend]
          exact .pass hkey hd happend hrange hprepend

theorem coalesced_stop (h : coalesce n parent = .stop p) : Coalesced n parent (.stop p) :=
  h ▸ coalesced n parent

/-- Insertion leaves every node it passes alone. -/
theorem coalesce_descend (h : coalesce n parent = .descend p) : p = parent := by
  have hc := coalesced n parent
  rw [h] at hc
  cases hc with
  | otherKey _ => rfl
  | pass _ _ _ _ _ => rfl

/-- Taking the access in, the progression does not wrap around: the second element
of a progression is above the first, a new last element above the last, a new first
one below the first, and the product in `END` stays below `2 ^ 32`. -/
structure Fits (n parent : IntervalTreeNode) : Prop where
  second : parent.diff = 0 → n.start - parent.start < 64 → parent.start ≤ n.start
  append : parent.diff ≠ 0 → n.start = parent.END + parent.diff.toUInt64 →
    parent.END ≤ n.start ∧ parent.Grows
  prepend : parent.diff ≠ 0 → n.start = parent.start - parent.diff.toUInt64 →
    n.start ≤ parent.start ∧ parent.Grows

instance (n parent : IntervalTreeNode) : Decidable (Fits n parent) :=
  decidable_of_iff ((parent.diff = 0 → n.start - parent.start < 64 → parent.start ≤ n.start) ∧
      (parent.diff ≠ 0 → n.start = parent.END + parent.diff.toUInt64 →
        parent.END ≤ n.start ∧ parent.Grows) ∧
      (parent.diff ≠ 0 → n.start = parent.start - parent.diff.toUInt64 →
        n.start ≤ parent.start ∧ parent.Grows))
    ⟨fun h => ⟨h.1, h.2.1, h.2.2⟩, fun h => ⟨h.second, h.append, h.prepend⟩⟩

/-- The access is not dropped: a second element is less than 64 bytes above the
first, and an address in the range of a progression is one of its elements. -/
structure Kept (n parent : IntervalTreeNode) : Prop where
  near : parent.diff = 0 → n.start - parent.start < 64
  onStride : parent.diff ≠ 0 → parent.start ≤ n.start → n.start ≤ parent.END →
    n.start.toNat % parent.diff.toNat = parent.start.toNat % parent.diff.toNat

theorem diff_pos (h : parent.diff ≠ 0) : 0 < parent.diff.toNat :=
  Nat.pos_of_ne_zero fun h' => h (UInt32.toNat_inj.1 (h'.trans rfl))

/-- The difference a node with one element gets, where the second is above the first. -/
theorem toNat_diff (hle : parent.start ≤ n.start) (hlt : n.start - parent.start < 64) :
    (n.start - parent.start).toUInt32.toNat = n.start.toNat - parent.start.toNat := by
  rw [← UInt32.toNat_toUInt64, toUInt64_diff hlt]
  exact UInt64.toNat_sub_of_le _ _ hle

theorem diff_ne_zero (hne : n.start - parent.start ≠ 0) (hlt : n.start - parent.start < 64) :
    (n.start - parent.start).toUInt32 ≠ 0 := by
  intro h
  have hback := toUInt64_diff hlt
  rw [h] at hback
  exact hne hback.symm

/-- A node with one element gets its difference. -/
theorem second_absorbed (hwf : parent.Compact) (hd : parent.diff = 0)
    (hne : n.start - parent.start ≠ 0) (hlt : n.start - parent.start < 64)
    (hle : parent.start ≤ n.start)
    (hp : p = .grow { parent with diff := (n.start - parent.start).toUInt32 }) :
    p.Compact ∧ Absorbed {n.start.toNat} parent p ∧ n.start.toNat ∈ p.addresses := by
  have hone : parent.count.toNat = 1 := by
    rw [hwf.diff_eq_zero.1 hd]
    rfl
  have hlast : parent.last = parent.start := by
    rw [← hwf.END_eq, END_of_diff_eq_zero hd]
  have hdiff := toNat_diff hle hlt
  have hnear : (n.start - parent.start).toUInt32.toNat < 64 := by
    rw [← UInt32.toNat_toUInt64, toUInt64_diff hlt]
    exact hlt
  obtain ⟨q, hq⟩ : ∃ q, q = { parent with diff := (n.start - parent.start).toUInt32 } := ⟨_, rfl⟩
  have hqd : q.diff = (n.start - parent.start).toUInt32 := by rw [hq]
  have hqc : q.count.toNat = 1 := by rw [hq]; exact hone
  have hqs : q.start = parent.start := by rw [hq]
  have hql : q.last = parent.start := by rw [hq]; exact hlast
  have haddr : q.addresses = parent.addresses := by
    rw [addresses, addresses, hqc, hone, hqs, progression_one, progression_one]
  have hnext : n.start = q.last + q.diff.toUInt64 := by
    rw [hql, hqd, toUInt64_diff hlt]
    simp
  rw [← hqd] at hnear
  obtain ⟨hwf', hgrow⟩ := grow_last (hqd ▸ diff_ne_zero hne hlt) (by omega)
    (by rw [hqc, hqs, hql]; simp) ⟨by rw [hqc]; omega, by omega⟩ hnext (by rw [hql]; exact hle)
  rw [haddr] at hgrow
  rw [hp, ← hq]
  refine ⟨hwf', absorbed_insert ?_ hgrow, ?_⟩
  · rw [hq]
    exact ⟨rfl, rfl, rfl⟩
  · rw [hgrow]
    exact Set.mem_insert _ _

/-- An element of the stride in the range of the parent is one of its elements. -/
theorem mem_addresses_inRange (hwf : parent.Compact) (hd : parent.diff ≠ 0) (hkept : Kept n parent)
    (hrange : parent.start ≤ n.start ∧ n.start ≤ parent.END) :
    n.start.toNat ∈ parent.addresses := by
  rw [addresses, mem_progression_iff (diff_pos hd) hwf.count_pos, hwf.last_eq]
  refine ⟨UInt64.le_iff_toNat_le.1 hrange.1, ?_, hkept.onStride hd hrange.1 hrange.2⟩
  have hle := UInt64.le_iff_toNat_le.1 hrange.2
  rwa [hwf.END_eq] at hle

/-- **Insertion at a node** of the search path where it ends. -/
theorem coalesce_stop (hwf : parent.Compact) (hfits : SameKey n parent → Fits n parent)
    (h : coalesce n parent = .stop p) :
    SameKey n parent ∧ p.Compact ∧ Absorbed {n.start.toNat} parent p ∧
      (Kept n parent → n.start.toNat ∈ p.addresses) := by
  have hgrown : ∀ {q : IntervalTreeNode}, SameKey q parent →
      q.Compact ∧ q.addresses = insert n.start.toNat parent.addresses →
      q.Compact ∧ Absorbed {n.start.toNat} parent q ∧
        (Kept n parent → n.start.toNat ∈ q.addresses) :=
    fun hkey ⟨hwf', haddr⟩ =>
      ⟨hwf', absorbed_insert hkey haddr, fun _ => haddr ▸ Set.mem_insert _ _⟩
  cases coalesced_stop h with
  | second hkey hd hne hlt =>
    obtain ⟨hwf', habs, hmem⟩ :=
      second_absorbed hwf hd hne hlt ((hfits hkey).second hd hlt) rfl
    exact ⟨hkey, hwf', habs, fun _ => hmem⟩
  | far hkey hd hfar =>
    refine ⟨hkey, hwf, absorbed_refl parent _, fun hkept => ?_⟩
    rw [hfar.resolve_right (UInt64.not_le.2 (hkept.near hd))]
    exact start_mem_progression hwf.count_pos
  | append hkey hd happend =>
    obtain ⟨hle, hg⟩ := (hfits hkey).append hd happend
    rw [hwf.END_eq] at happend hle
    exact ⟨hkey, hgrown ⟨rfl, rfl, rfl⟩
      (grow_last hd hwf.count_pos hwf.last_eq hg happend hle)⟩
  | inRange hkey hd _ hrange =>
    exact ⟨hkey, hwf, absorbed_refl parent _,
      fun hkept => mem_addresses_inRange hwf hd hkept hrange⟩
  | prepend hkey hd _ _ hprepend =>
    obtain ⟨hle, hg⟩ := (hfits hkey).prepend hd hprepend
    exact ⟨hkey, hgrown ⟨rfl, rfl, rfl⟩ (grow_start hd hwf.toWellFormed hg hprepend hle)⟩

/-! ## Folding two nodes -/

/-- What a visit of a merge does at a node: the branches of `foldNode`. -/
inductive Folded (n parent : IntervalTreeNode) : Visit IntervalTreeNode → Prop
  | otherKey : ¬ (SameKey n parent ∧ n.diff = parent.diff) → Folded n parent (.descend parent)
  | below : SameKey n parent → n.diff = parent.diff →
      ¬ (n.count = parent.count ∧ parent.count = 1) →
      parent.start - n.last = parent.diff.toUInt64 →
      Folded n parent (.stop (parent.refold n.start parent.last))
  | above : SameKey n parent → n.diff = parent.diff →
      ¬ (n.count = parent.count ∧ parent.count = 1) →
      parent.start - n.last ≠ parent.diff.toUInt64 →
      n.start - parent.last = parent.diff.toUInt64 →
      Folded n parent (.stop (parent.refold parent.start n.last))
  | overlap : SameKey n parent → n.diff = parent.diff →
      ¬ (n.count = parent.count ∧ parent.count = 1) →
      parent.start - n.last ≠ parent.diff.toUInt64 →
      n.start - parent.last ≠ parent.diff.toUInt64 →
      n.start ≤ parent.last ∧ parent.start ≤ n.last →
      Folded n parent (.stop (parent.refold
        (if parent.start < n.start then parent.start else n.start)
        (if parent.last < n.last then n.last else parent.last)))
  | apart : SameKey n parent → n.diff = parent.diff →
      ¬ (n.count = parent.count ∧ parent.count = 1) →
      parent.start - n.last ≠ parent.diff.toUInt64 →
      n.start - parent.last ≠ parent.diff.toUInt64 →
      ¬ (n.start ≤ parent.last ∧ parent.start ≤ n.last) → Folded n parent (.descend parent)
  | same : SameKey n parent → n.diff = parent.diff → n.count = parent.count ∧ parent.count = 1 →
      parent.start = n.start → Folded n parent (.stop parent)
  | other : SameKey n parent → n.diff = parent.diff → n.count = parent.count ∧ parent.count = 1 →
      parent.start ≠ n.start → Folded n parent (.descend parent)

theorem folded (n parent : IntervalTreeNode) : Folded n parent (foldNode n parent) := by
  rw [foldNode]
  by_cases hkey : SameKey n parent ∧ n.diff = parent.diff
  swap
  · rw [if_neg hkey]
    exact .otherKey hkey
  rw [if_pos hkey]
  obtain ⟨hkey, hdiff⟩ := hkey
  by_cases hcounts : n.count = parent.count ∧ parent.count = 1
  · rw [if_neg (not_not.2 hcounts)]
    by_cases hstart : parent.start = n.start
    · rw [if_pos hstart]
      exact .same hkey hdiff hcounts hstart
    · rw [if_neg hstart]
      exact .other hkey hdiff hcounts hstart
  · rw [if_pos hcounts]
    by_cases hbelow : parent.start - n.last = parent.diff.toUInt64
    · rw [if_pos hbelow]
      exact .below hkey hdiff hcounts hbelow
    · rw [if_neg hbelow]
      by_cases habove : n.start - parent.last = parent.diff.toUInt64
      · rw [if_pos habove]
        exact .above hkey hdiff hcounts hbelow habove
      · rw [if_neg habove]
        by_cases hrange : n.start ≤ parent.last ∧ parent.start ≤ n.last
        · rw [if_pos hrange]
          exact .overlap hkey hdiff hcounts hbelow habove hrange
        · rw [if_neg hrange]
          exact .apart hkey hdiff hcounts hbelow habove hrange

theorem folded_stop (h : foldNode n parent = .stop p) : Folded n parent (.stop p) :=
  h ▸ folded n parent

/-- Merging leaves the nodes it passes alone. -/
theorem foldNode_descend (h : foldNode n parent = .descend p) : p = parent := by
  have hf := folded n parent
  rw [h] at hf
  cases hf with
  | otherKey _ => rfl
  | apart _ _ _ _ _ _ => rfl
  | other _ _ _ _ => rfl

/-- The nodes are folded without wrapping around and without mixing residues. -/
structure Foldable (n parent : IntervalTreeNode) : Prop where
  below : parent.start - n.last = parent.diff.toUInt64 → n.last ≤ parent.start
  above : n.start - parent.last = parent.diff.toUInt64 → parent.last ≤ n.start
  residue : n.start ≤ parent.last → parent.start ≤ n.last →
    parent.start.toNat % parent.diff.toNat = n.start.toNat % parent.diff.toNat
  count : (max parent.last.toNat n.last.toNat - min parent.start.toNat n.start.toNat) /
    parent.diff.toNat + 1 < 2 ^ 32

theorem IntervalTreeNode.WellFormed.two_le_count (hwf : parent.WellFormed) (hd : parent.diff ≠ 0) :
    2 ≤ parent.count.toNat := by
  have hpos := hwf.count_pos
  have hne : parent.count.toNat ≠ 1 := fun h => hd (hwf.diff_eq_zero.2 (UInt32.toNat_inj.1 h))
  omega

/-- Nodes that do not both count one element have a difference. -/
theorem diff_ne_zero_of_counts (hn : n.diff = 0 ↔ n.count = 1)
    (hp : parent.diff = 0 ↔ parent.count = 1) (hdiff : n.diff = parent.diff)
    (hcounts : ¬ (n.count = parent.count ∧ parent.count = 1)) : parent.diff ≠ 0 := by
  intro hd
  have hpc := hp.1 hd
  exact hcounts ⟨(hn.1 (hdiff.trans hd)).trans hpc.symm, hpc⟩

/-- Two addresses one step apart. -/
theorem toNat_add_diff {a b : UInt64} {d : UInt32} (hle : a ≤ b) (h : b - a = d.toUInt64) :
    a.toNat + d.toNat = b.toNat := by
  have hnat := congrArg UInt64.toNat h
  rw [UInt64.toNat_sub_of_le _ _ hle, UInt32.toNat_toUInt64] at hnat
  rw [UInt64.le_iff_toNat_le] at hle
  omega

theorem toNat_min (a b : UInt64) : (if a < b then a else b).toNat = min a.toNat b.toNat := by
  split
  · rename_i hlt
    exact (min_eq_left (UInt64.lt_iff_toNat_lt.1 hlt).le).symm
  · rename_i hle
    exact (min_eq_right (UInt64.le_iff_toNat_le.1 (UInt64.not_lt.1 hle))).symm

theorem toNat_max (a b : UInt64) : (if a < b then b else a).toNat = max a.toNat b.toNat := by
  split
  · rename_i hlt
    exact (max_eq_right (UInt64.lt_iff_toNat_lt.1 hlt).le).symm
  · rename_i hle
    exact (max_eq_left (UInt64.le_iff_toNat_le.1 (UInt64.not_lt.1 hle))).symm

/-- The count computed from the ends, where it does not wrap around. -/
theorem toNat_count_refold (hd : parent.diff ≠ 0) {start last : UInt64}
    (hle : start.toNat ≤ last.toNat)
    (hspan : (last.toNat - start.toNat) / parent.diff.toNat + 1 < 2 ^ 32) :
    (parent.refold start last).count.toNat =
      (last.toNat - start.toNat) / parent.diff.toNat + 1 := by
  have hsub : (last - start).toNat = last.toNat - start.toNat :=
    UInt64.toNat_sub_of_le _ _ (UInt64.le_iff_toNat_le.2 hle)
  show (if parent.diff ≠ 0 then _ else _ : UInt32).toNat = _
  rw [if_pos hd, UInt64.toNat_toUInt32, UInt64.toNat_add, UInt64.toNat_div, hsub,
    UInt32.toNat_toUInt64]
  show ((last.toNat - start.toNat) / parent.diff.toNat + 1) % 2 ^ 64 % 2 ^ 32 = _
  generalize (last.toNat - start.toNat) / parent.diff.toNat = q at hspan
  rw [Nat.mod_eq_of_lt (by omega), Nat.mod_eq_of_lt (by omega)]

/-- The parent with the ends of both ends at its last element, and has the elements of
both. -/
theorem refold_union (hn : 0 < n.count.toNat) (hp : 0 < parent.count.toNat)
    (hnl : n.start.toNat + n.diff.toNat * (n.count.toNat - 1) = n.last.toNat)
    (hpl : parent.start.toNat + parent.diff.toNat * (parent.count.toNat - 1) = parent.last.toNat)
    (hd : parent.diff ≠ 0) (hdiff : n.diff = parent.diff) {start last : UInt64}
    (hs : start.toNat = min parent.start.toNat n.start.toNat)
    (hl : last.toNat = max parent.last.toNat n.last.toNat)
    (hspan : (last.toNat - start.toNat) / parent.diff.toNat + 1 < 2 ^ 32)
    (h : parent.last.toNat + parent.diff.toNat = n.start.toNat ∨
      n.last.toNat + parent.diff.toNat = parent.start.toNat ∨
      (parent.start.toNat ≤ n.last.toNat ∧ n.start.toNat ≤ parent.last.toNat) ∧
        parent.start.toNat % parent.diff.toNat = n.start.toNat % parent.diff.toNat) :
    (parent.refold start last).count.toNat =
        (last.toNat - start.toNat) / parent.diff.toNat + 1 ∧
      start.toNat + parent.diff.toNat * ((parent.refold start last).count.toNat - 1) =
        last.toNat ∧
      (parent.refold start last).addresses = parent.addresses ∪ n.addresses := by
  rw [hdiff] at hnl
  have hfold := progression_fold (diff_pos hd) hp hn (by rw [hpl, hnl]; exact h)
  rw [hpl, hnl, ← hs, ← hl] at hfold
  dsimp only at hfold
  obtain ⟨hend, hset⟩ := hfold
  have hcount := toNat_count_refold hd (by omega) hspan
  refine ⟨hcount, ?_, ?_⟩
  · rw [hcount]
    exact hend
  · rw [addresses, hcount, addresses, addresses, hdiff]
    exact hset

/-- The parent with the ends of both is well formed. -/
theorem refold_spec (hn : n.WellFormed) (hwf : parent.WellFormed) (hd : parent.diff ≠ 0)
    (hdiff : n.diff = parent.diff) {start last : UInt64}
    (hs : start.toNat = min parent.start.toNat n.start.toNat)
    (hl : last.toNat = max parent.last.toNat n.last.toNat)
    (hspan : (last.toNat - start.toNat) / parent.diff.toNat + 1 < 2 ^ 32)
    (h : parent.last.toNat + parent.diff.toNat = n.start.toNat ∨
      n.last.toNat + parent.diff.toNat = parent.start.toNat ∨
      (parent.start.toNat ≤ n.last.toNat ∧ n.start.toNat ≤ parent.last.toNat) ∧
        parent.start.toNat % parent.diff.toNat = n.start.toNat % parent.diff.toNat) :
    (parent.refold start last).WellFormed ∧
      (parent.refold start last).addresses = parent.addresses ∪ n.addresses := by
  obtain ⟨hcount, hend, hset⟩ := refold_union hn.count_pos hwf.count_pos hn.last_eq hwf.last_eq hd
    hdiff hs hl hspan h
  refine ⟨wellFormed_of_grown hd ?_ hend, hset⟩
  have hmore : parent.diff.toNat ≤ last.toNat - start.toNat := by
    have hpl := hwf.last_eq
    have h2 := hwf.two_le_count hd
    have hmul : parent.diff.toNat * 1 ≤ parent.diff.toNat * (parent.count.toNat - 1) :=
      Nat.mul_le_mul_left _ (by omega)
    omega
  have hone := Nat.div_pos hmore (diff_pos hd)
  omega

/-- What folding leaves: the parent, if it is the same single element, or the parent with the
ends of both, which continue each other or overlap. -/
theorem ends_of_foldable (hns : n.start.toNat ≤ n.last.toNat)
    (hps : parent.start.toNat ≤ parent.last.toNat) (hf : Foldable n parent)
    (h : foldNode n parent = .stop p) :
    (n.count = parent.count ∧ parent.count = 1) ∧ parent.start = n.start ∧ p = parent ∨
      ¬ (n.count = parent.count ∧ parent.count = 1) ∧ ∃ start last : UInt64,
        p = parent.refold start last ∧
        start.toNat = min parent.start.toNat n.start.toNat ∧
        last.toNat = max parent.last.toNat n.last.toNat ∧
        (parent.last.toNat + parent.diff.toNat = n.start.toNat ∨
          n.last.toNat + parent.diff.toNat = parent.start.toNat ∨
          (parent.start.toNat ≤ n.last.toNat ∧ n.start.toNat ≤ parent.last.toNat) ∧
            parent.start.toNat % parent.diff.toNat = n.start.toNat % parent.diff.toNat) := by
  cases folded_stop h with
  | below hkey hdiff hcounts hbelow =>
    have hstep := toNat_add_diff (hf.below hbelow) hbelow
    exact Or.inr ⟨hcounts, _, _, rfl, by omega, by omega, Or.inr (Or.inl hstep)⟩
  | above hkey hdiff hcounts _ habove =>
    have hstep := toNat_add_diff (hf.above habove) habove
    exact Or.inr ⟨hcounts, _, _, rfl, by omega, by omega, Or.inl hstep⟩
  | overlap hkey hdiff hcounts _ _ hrange =>
    have h1 := UInt64.le_iff_toNat_le.1 hrange.1
    have h2 := UInt64.le_iff_toNat_le.1 hrange.2
    exact Or.inr ⟨hcounts, _, _, rfl, toNat_min _ _, toNat_max _ _,
      Or.inr (Or.inr ⟨⟨h2, h1⟩, hf.residue hrange.1 hrange.2⟩)⟩
  | same hkey hdiff hcounts hstart => exact Or.inl ⟨hcounts, hstart, rfl⟩

theorem key_of_foldNode_stop (h : foldNode n parent = .stop p) :
    SameKey n parent ∧ n.diff = parent.diff ∧ SameKey p parent ∧ p.diff = parent.diff := by
  cases folded_stop h with
  | below hkey hdiff _ _ => exact ⟨hkey, hdiff, ⟨rfl, rfl, rfl⟩, rfl⟩
  | above hkey hdiff _ _ _ => exact ⟨hkey, hdiff, ⟨rfl, rfl, rfl⟩, rfl⟩
  | overlap hkey hdiff _ _ _ _ => exact ⟨hkey, hdiff, ⟨rfl, rfl, rfl⟩, rfl⟩
  | same hkey hdiff _ _ => exact ⟨hkey, hdiff, ⟨rfl, rfl, rfl⟩, rfl⟩

/-- A node of the same single element has the same addresses. -/
theorem addresses_of_same (hdiff : n.diff = parent.diff) (hcount : n.count = parent.count)
    (hstart : parent.start = n.start) : n.addresses = parent.addresses := by
  rw [addresses, addresses, hcount, hstart, hdiff]

/-- **Folding at a node** of the search path where the descent ends. -/
theorem foldNode_stop (hn : n.WellFormed) (hwf : parent.WellFormed)
    (hfold : SameKey n parent → n.diff = parent.diff → parent.diff ≠ 0 → Foldable n parent)
    (h : foldNode n parent = .stop p) :
    SameKey n parent ∧ p.WellFormed ∧ Absorbed n.addresses parent p ∧
      n.addresses ⊆ p.addresses := by
  obtain ⟨hkey, hdiff, hpkey, -⟩ := key_of_foldNode_stop h
  refine ⟨hkey, ?_⟩
  by_cases hd : parent.diff = 0
  · -- both are single elements
    have hcounts : n.count = parent.count ∧ parent.count = 1 := by
      by_contra hcounts
      exact diff_ne_zero_of_counts hn.diff_eq_zero hwf.diff_eq_zero hdiff hcounts hd
    cases folded_stop h with
    | below _ _ hne _ => exact absurd hcounts hne
    | above _ _ hne _ _ => exact absurd hcounts hne
    | overlap _ _ hne _ _ _ => exact absurd hcounts hne
    | same _ _ _ hstart =>
      have haddr := addresses_of_same hdiff hcounts.1 hstart
      exact ⟨hwf, absorbed_refl parent _, haddr.subset⟩
  · have hf := hfold hkey hdiff hd
    rcases ends_of_foldable hn.start_le_last hwf.start_le_last hf h with
      ⟨hcounts, hstart, rfl⟩ | ⟨-, start, last, rfl, hs, hl, hor⟩
    · have haddr := addresses_of_same hdiff hcounts.1 hstart
      exact ⟨hwf, absorbed_refl p _, haddr.subset⟩
    · obtain ⟨hwf', hset⟩ := refold_spec hn hwf hd hdiff hs hl (by rw [hs, hl]; exact hf.count) hor
      exact ⟨hwf', ⟨hpkey, hset ▸ Set.subset_union_left, hset.subset⟩,
        hset ▸ Set.subset_union_right⟩

/-! ## The nodes after a call -/

/-- An insertion changes the node where its search ends, or adds one there. -/
theorem insertStep_descended (root : IntervalTree) (c : InsertCall) :
    Descended (coalesce c.node) c.node (root.visited (coalesce c.node) (goLeft c.node))
      root.toList (insertStep root c).toList := by
  obtain ⟨es, hdesc, hlist⟩ := @toList_descend _ _ computeSubtreeLast _ _ (raise c.node.last)
    c.node c.node.last root [] (fun e _ e' hv => coalesce_descend hv)
  simp only [before, after, List.nil_append, List.append_nil] at hlist
  have hes : (insertStep root c).toList = es := hlist
  rw [hes]
  exact hdesc

/-- Merging into a tree that is not empty is a descent. -/
theorem mergeNode_eq {tree1 : IntervalTree} (n : IntervalTreeNode) (hne : tree1 ≠ .nil) :
    mergeNode tree1 n = some (descend computeSubtreeLast (foldNode n) (goLeft n) (raise n.last)
      (.make n.start n.last n.sizeType n.pc n.mutex) n.last [] tree1) := by
  cases tree1 with
  | nil => exact absurd rfl hne
  | node c l e b r => rfl

/-- A node with one element is added as it is. -/
theorem make_eq_self (hdiff : n.diff = 0 ↔ n.count = 1) (hcount : n.count = 1) :
    IntervalTreeNode.make n.start n.last n.sizeType n.pc n.mutex = n := by
  have hd := hdiff.2 hcount
  obtain ⟨start, last, count, sizeType, diff, pc, mutex⟩ := n
  dsimp only at hcount hd
  rw [IntervalTreeNode.make, hcount, hd]

/-- Merging a node changes the node where its search ends, or adds the node itself, if it has
one element then. -/
theorem mergeNode_descended {tree1 : IntervalTree} (hne : tree1 ≠ .nil)
    (hdiff : n.diff = 0 ↔ n.count = 1)
    (hsingle : (∀ parent ∈ tree1.visited (foldNode n) (goLeft n),
      foldNode n parent = .descend parent) → n.count = 1) :
    ∃ tree, mergeNode tree1 n = some tree ∧
      Descended (foldNode n) n (tree1.visited (foldNode n) (goLeft n)) tree1.toList
        tree.toList := by
  refine ⟨_, mergeNode_eq n hne, ?_⟩
  obtain ⟨es, hdesc, hlist⟩ := @toList_descend _ _ computeSubtreeLast _ _ (raise n.last)
    (.make n.start n.last n.sizeType n.pc n.mutex) n.last tree1 []
    (fun e _ e' hv => foldNode_descend hv)
  rw [hlist]
  simp only [before, after, List.nil_append, List.append_nil]
  exact hdesc.entry_eq fun hall => make_eq_self hdiff (hsingle hall)

end Tools
end Sword
