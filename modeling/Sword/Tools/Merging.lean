import Sword.Tools.Represents
import Sword.Tools.Calls

/-!
# Merging trees, and the tests on pairs of their nodes

Two properties of every state reached by insertions and merging.

* `InsertSafe`, `merge_is_union` — where no progression wraps around and every node of the
  second tree can be folded or has one element, merging makes the first tree stand for the
  accesses of both and empties the second.
* `Ranged` — what the tests on pairs of nodes need of a node; `allRanged_reached` says where
  it holds.
* `EdgeOverlap`, `pairTests_iff` — the range test compares the addresses of elements, and
  not their bytes: when the tests agree with the bytes.
-/

namespace Sword
namespace Tools

open Run Progression

/-! ## Merging is union -/

/-- No progression wraps around when the access is inserted. -/
def InsertSafe (root : IntervalTree) (c : InsertCall) : Prop :=
  AllCompact root.toList ∧ InsertFits root c

theorem allWellFormed_reached {glpk : Glpk} {s : ℕ → IntervalTree}
    (h : Reached InsertSafe MergeFits glpk s) (i : ℕ) :
    AllWellFormed (s i).toList ∧ (s i).IsRedBlack :=
  @forall_reached _ _ glpk AllWellFormed IntervalTreeNode.WellFormed
    (fun _ hn => (List.not_mem_nil hn).elim) (fun _ hes => hes)
    (fun _ _ _ hok => (insertStep_spec hok.1 hok.2).1.allWellFormed)
    (fun _ _ ht hn hok => by
      obtain ⟨t', hsome, hwf, -⟩ := mergeNode_spec ht hn hok
      exact ⟨t', hsome, hwf⟩)
    s h i

/-- **Merging is union.**  In every state reached by calls that meet the conditions, so
does merging a tree whose nodes meet them: the first tree then stands for exactly the
accesses of both, for every size, type, program counter and lockset; the second is empty;
and no other tree changes. -/
theorem merge_is_union (glpk : Glpk) (s : ℕ → IntervalTree)
    (h : Reached InsertSafe MergeFits glpk s) (i j : ℕ)
    (hok : Allowed InsertSafe MergeFits s (.merge i j)) :
    ∃ s', step glpk s (.merge i j) = some s' ∧
      (∀ key, {a | (key, a) ∈ footprint (s' i).toList} =
        {a | (key, a) ∈ footprint (s i).toList} ∪ {a | (key, a) ∈ footprint (s j).toList}) ∧
      s' j = .nil ∧ ∀ k, k ≠ i → k ≠ j → s' k = s k := by
  obtain ⟨hij, hg⟩ := hok
  obtain ⟨tree, hsome, -, hset⟩ := merge_spec (allWellFormed_reached h i).1
    (allWellFormed_reached h j).1 hg
  refine ⟨Function.update (Function.update s i tree) j .nil, ?_, ?_, ?_, ?_⟩
  · exact step_merge (allWellFormed_reached h j).2 hsome
  · intro key
    rw [Function.update_of_ne hij, Function.update_self, hset]
    rfl
  · rw [Function.update_self]
  · intro k hki hkj
    rw [Function.update_of_ne hkj, Function.update_of_ne hki]

theorem merge_is_union_twoTrees :
    ∃ s', step Glpk.exhaustive twoTrees (.merge 0 1) = some s' ∧
      (∀ key, {a | (key, a) ∈ footprint (s' 0).toList} =
        {a | (key, a) ∈ footprint (twoTrees 0).toList} ∪
          {a | (key, a) ∈ footprint (twoTrees 1).toList}) ∧
      s' 1 = .nil ∧ ∀ k, k ≠ 0 → k ≠ 1 → s' k = twoTrees k := by
  refine merge_is_union Glpk.exhaustive twoTrees (reached_twoTrees fun c => ?_) 0 1
    ⟨by decide, ⟨by decide, ?_, fun _ => rfl⟩, fun _ _ => trivial⟩
  · exact ⟨fun n hn => (List.not_mem_nil hn).elim, fun e he => (List.not_mem_nil he).elim⟩
  · intro parent hparent hkey
    have hp : parent ∈ (twoTrees 0).toList := mem_toList_of_mem_visited hparent
    obtain rfl : parent = ⟨4096, 4096, 1, 0x21, 0, 64, ∅⟩ := List.mem_singleton.1 hp
    exact absurd hkey.2.1 (by decide)

/-- A loop of two writes, and a write by another instruction. -/
def strideTree : IntervalTree := load [⟨100, 0x21, 65, ∅⟩, ⟨104, 0x21, 65, ∅⟩]

/-- The node of the loop is added without its count and its difference. -/
theorem strideTree_lost : ∃ tree, mergeTrees (oneWrite 0 64) strideTree = some (tree, .nil) ∧
    ((0x21, 65, ∅), 104) ∈ footprint strideTree.toList ∧
      ((0x21, 65, ∅), 104) ∉ footprint tree.toList := by
  have hstride : strideTree = .node .black .nil ⟨100, 104, 2, 0x21, 4, 65, ∅⟩ 100 .nil := by
    decide
  obtain ⟨tree, htree⟩ : ∃ tree : IntervalTree, tree = .node .black .nil
      ⟨0, 0, 1, 0x21, 0, 64, ∅⟩ 104 (.node .red .nil ⟨100, 104, 1, 0x21, 0, 65, ∅⟩ 104 .nil) :=
    ⟨_, rfl⟩
  have hmerge : merge (oneWrite 0 64) strideTree = some tree := by
    rw [htree]
    decide
  have hlist : tree.toList = [⟨0, 0, 1, 0x21, 0, 64, ∅⟩, ⟨100, 104, 1, 0x21, 0, 65, ∅⟩] := by
    rw [htree]
    rfl
  refine ⟨tree, ?_, ?_, ?_⟩
  · rw [mergeTrees_eq ⟨1, hstride ▸ .black .nil .nil⟩, hmerge]
    rfl
  · rw [hstride]
    exact ⟨_, List.mem_singleton.2 rfl, rfl, 1, by decide, by decide⟩
  · rintro ⟨n, hn, hkey, k, hk, hk'⟩
    rw [hlist, List.mem_cons, List.mem_singleton] at hn
    rcases hn with rfl | rfl
    · exact absurd hkey (by decide)
    · have hk : k < 1 := hk
      have hk' : 104 = 100 + 0 * k := hk'
      omega

/-! ## The range of a node -/

namespace IntervalTreeNode

/-- The last element of the progression. -/
def top (n : IntervalTreeNode) : ℕ := n.start.toNat + n.diff.toNat * (n.count.toNat - 1)

/-- The progression stays within the range of the node, and a node that counts one element
has the range of one. -/
structure Ranged (n : IntervalTreeNode) : Prop where
  count_pos : 0 < n.count.toNat
  diff_eq_zero : n.diff = 0 ↔ n.count = 1
  top_le : n.top ≤ n.last.toNat
  single : n.count = 1 → n.last = n.start

variable {n parent p : IntervalTreeNode}

theorem ranged_make (s : UInt64) (st : UInt8) (pc : UInt64) (mtx : Finset UInt64) :
    (make s s st pc mtx).Ranged where
  count_pos := Nat.one_pos
  diff_eq_zero := iff_of_true rfl rfl
  top_le := le_rfl
  single _ := rfl

/-- A node with a difference and at least two elements. -/
theorem ranged_of_two_le (hd : n.diff ≠ 0) (hc : 1 < n.count.toNat) (htop : n.top ≤ n.last.toNat) :
    n.Ranged := by
  have hne : n.count ≠ 1 := by
    intro h
    rw [h] at hc
    exact absurd hc (by decide)
  exact ⟨by omega, iff_of_false hd hne, htop, fun h => absurd h hne⟩

theorem Ranged.two_le_count (h : n.Ranged) (hd : n.diff ≠ 0) : 2 ≤ n.count.toNat := by
  have hpos := h.count_pos
  have hne : n.count.toNat ≠ 1 := fun h' => hd (h.diff_eq_zero.2 (UInt32.toNat_inj.1 h'))
  omega

theorem Ranged.start_le_last (h : n.Ranged) : n.start.toNat ≤ n.last.toNat :=
  (Nat.le_add_right _ _).trans h.top_le

/-- A node with a difference has room for a step. -/
theorem Ranged.start_add_diff_le (h : n.Ranged) (hd : n.diff ≠ 0) :
    n.start.toNat + n.diff.toNat ≤ n.last.toNat := by
  have htop := h.top_le
  have htwo := h.two_le_count hd
  have hmul : n.diff.toNat * 1 ≤ n.diff.toNat * (n.count.toNat - 1) :=
    Nat.mul_le_mul_left _ (by omega)
  rw [top] at htop
  omega

/-- `END` is the last element, where its product does not wrap around. -/
theorem Ranged.toNat_END (h : n.Ranged) (hfits : n.diff.toNat * (n.count.toNat - 1) < 2 ^ 32) :
    n.END.toNat = n.top := by
  have hle := h.top_le
  have hlt := n.last.toNat_lt
  rw [top] at hle ⊢
  rw [END, UInt64.toNat_add, UInt32.toNat_toUInt64, toNat_span h.count_pos hfits,
    Nat.mod_eq_of_lt (by omega)]

/-- One element more at the end, below `2 ^ 64`. -/
theorem ranged_grow (hd : parent.diff ≠ 0) (hc : 0 < parent.count.toNat) (hg : parent.Grows)
    (hlt : parent.start.toNat + parent.diff.toNat * parent.count.toNat < 2 ^ 64) :
    parent.grow.Ranged := by
  have hcount : parent.grow.count.toNat = parent.count.toNat + 1 := toNat_count_succ hg
  have hlast : parent.grow.last.toNat =
      parent.start.toNat + parent.diff.toNat * parent.count.toNat := by
    have hsub : parent.count + 1 - 1 = parent.count := by simp
    show (parent.start + (parent.diff * (parent.count + 1 - 1)).toUInt64).toNat = _
    rw [hsub, UInt64.toNat_add, UInt32.toNat_toUInt64, UInt32.toNat_mul, Nat.mod_eq_of_lt hg.1,
      Nat.mod_eq_of_lt hlt]
  refine ranged_of_two_le hd (by omega) ?_
  rw [hlast, top, hcount, Nat.add_sub_cancel]
  exact le_rfl

/-- The parent with other ends, at least one step apart. -/
theorem ranged_refold (hd : parent.diff ≠ 0) {start last : UInt64}
    (hstep : start.toNat + parent.diff.toNat ≤ last.toNat)
    (hcount : (last.toNat - start.toNat) / parent.diff.toNat + 1 < 2 ^ 32) :
    (parent.refold start last).Ranged := by
  have hpos := diff_pos hd
  have hquot := toNat_count_refold hd (by omega) hcount
  refine ranged_of_two_le hd ?_ ?_
  · have hone : 0 < (last.toNat - start.toNat) / parent.diff.toNat :=
      Nat.div_pos (by omega) hpos
    omega
  · have hmul := Nat.mul_div_le (last.toNat - start.toNat) parent.diff.toNat
    rw [top, hquot, Nat.add_sub_cancel]
    show start.toNat + parent.diff.toNat * _ ≤ last.toNat
    omega

end IntervalTreeNode

open IntervalTreeNode

variable {n m parent p : IntervalTreeNode}

/-- A node with one element gets its difference. -/
theorem ranged_second (hr : parent.Ranged) (hd : parent.diff = 0) (hle : parent.start ≤ n.start)
    (hne : n.start - parent.start ≠ 0) (hlt : n.start - parent.start < 64) :
    (IntervalTreeNode.grow { parent with diff := (n.start - parent.start).toUInt32 }).Ranged := by
  have hone : parent.count.toNat = 1 := by
    rw [hr.diff_eq_zero.1 hd]
    rfl
  have hdiff := toNat_diff hle hlt
  have hdlt := (n.start - parent.start).toUInt32.toNat_lt
  have hn := n.start.toNat_lt
  rw [UInt64.le_iff_toNat_le] at hle
  refine ranged_grow (diff_ne_zero hne hlt) hr.count_pos ⟨?_, ?_⟩ ?_
  · show (n.start - parent.start).toUInt32.toNat * parent.count.toNat < 2 ^ 32
    rw [hone]
    omega
  · show parent.count.toNat + 1 < 2 ^ 32
    omega
  · show parent.start.toNat + (n.start - parent.start).toUInt32.toNat * parent.count.toNat < 2 ^ 64
    rw [hone, hdiff]
    omega

/-- One element more at the end, above the last one. -/
theorem ranged_append (hr : parent.Ranged) (hd : parent.diff ≠ 0) (hg : parent.Grows)
    (happend : n.start = parent.END + parent.diff.toUInt64) (hle : parent.END ≤ n.start) :
    parent.grow.Ranged := by
  have hpos := hr.count_pos
  have htop := hr.top_le
  have hlast := parent.last.toNat_lt
  have hdlt := parent.diff.toNat_lt
  have hproduct := hg.1
  have hmul := mul_pred_add hpos
  rw [happend, UInt64.le_iff_toNat_le, UInt64.toNat_add, UInt32.toNat_toUInt64,
    hr.toNat_END (by omega)] at hle
  rw [top] at hle htop
  exact ranged_grow hd hpos hg (by omega)

/-- One element more at the beginning, below the first one. -/
theorem ranged_prepend (hr : parent.Ranged) (hd : parent.diff ≠ 0) (hg : parent.Grows)
    (hprepend : n.start = parent.start - parent.diff.toUInt64) (hle : n.start ≤ parent.start) :
    IntervalTreeNode.Ranged { parent with start := n.start, count := parent.count + 1 } := by
  have hpos := hr.count_pos
  have htop := hr.top_le
  have hdlt := parent.diff.toNat_lt
  have hmul := mul_pred_add hpos
  have hcount : (parent.count + 1).toNat = parent.count.toNat + 1 := toNat_count_succ hg
  have hnat := congrArg UInt64.toNat hprepend
  rw [UInt64.toNat_sub, UInt32.toNat_toUInt64] at hnat
  rw [UInt64.le_iff_toNat_le] at hle
  refine ranged_of_two_le hd ?_ ?_
  · show 1 < (parent.count + 1).toNat
    omega
  · show n.start.toNat + parent.diff.toNat * ((parent.count + 1).toNat - 1) ≤ parent.last.toNat
    rw [hcount, Nat.add_sub_cancel]
    rw [top] at htop
    omega

/-- **Insertion at a node** where the search ends keeps it ranged. -/
theorem ranged_coalesce (hr : parent.Ranged) (hfits : SameKey n parent → Fits n parent)
    (h : coalesce n parent = .stop p) : p.Ranged := by
  cases coalesced_stop h with
  | second hkey hd hne hlt => exact ranged_second hr hd ((hfits hkey).second hd hlt) hne hlt
  | far _ _ _ => exact hr
  | append hkey hd happend =>
    obtain ⟨hle, hg⟩ := (hfits hkey).append hd happend
    exact ranged_append hr hd hg happend hle
  | inRange _ _ _ _ => exact hr
  | prepend hkey hd _ _ hprepend =>
    obtain ⟨hle, hg⟩ := (hfits hkey).prepend hd hprepend
    exact ranged_prepend hr hd hg hprepend hle

/-- The two nodes are folded without wrapping around. -/
structure Folds (n parent : IntervalTreeNode) : Prop where
  below : parent.start - n.last = parent.diff.toUInt64 → n.last ≤ parent.start
  above : n.start - parent.last = parent.diff.toUInt64 → parent.last ≤ n.start
  count : (max parent.last.toNat n.last.toNat - min parent.start.toNat n.start.toNat) /
    parent.diff.toNat + 1 < 2 ^ 32

instance (n parent : IntervalTreeNode) : Decidable (Folds n parent) :=
  decidable_of_iff ((parent.start - n.last = parent.diff.toUInt64 → n.last ≤ parent.start) ∧
      (n.start - parent.last = parent.diff.toUInt64 → parent.last ≤ n.start) ∧
      (max parent.last.toNat n.last.toNat - min parent.start.toNat n.start.toNat) /
        parent.diff.toNat + 1 < 2 ^ 32)
    ⟨fun h => ⟨h.1, h.2.1, h.2.2⟩, fun h => ⟨h.below, h.above, h.count⟩⟩

/-- **Folding at a node** where the search ends keeps it ranged, whatever the residues. -/
theorem ranged_foldNode (hn : n.Ranged) (hr : parent.Ranged)
    (hfolds : SameKey n parent → n.diff = parent.diff → parent.diff ≠ 0 → Folds n parent)
    (h : foldNode n parent = .stop p) : p.Ranged := by
  have hns := hn.start_le_last
  have hps := hr.start_le_last
  have hne := @diff_ne_zero_of_counts n parent hn.diff_eq_zero hr.diff_eq_zero
  have hends : parent.diff ≠ 0 → Folds n parent → ∀ {start last : UInt64},
      start.toNat = min parent.start.toNat n.start.toNat →
        last.toNat = max parent.last.toNat n.last.toNat → (parent.refold start last).Ranged := by
    intro hd hf start last hs hl
    have hcount := hf.count
    have hstep := hr.start_add_diff_le hd
    rw [← hs, ← hl] at hcount
    exact ranged_refold hd (by omega) hcount
  cases folded_stop h with
  | below hkey hdiff hcounts hbelow =>
    have hd := hne hdiff hcounts
    have hf := hfolds hkey hdiff hd
    have hle := UInt64.le_iff_toNat_le.1 (hf.below hbelow)
    exact hends hd hf (by omega) (by omega)
  | above hkey hdiff hcounts _ habove =>
    have hd := hne hdiff hcounts
    have hf := hfolds hkey hdiff hd
    have hle := UInt64.le_iff_toNat_le.1 (hf.above habove)
    exact hends hd hf (by omega) (by omega)
  | overlap hkey hdiff hcounts _ _ _ =>
    have hd := hne hdiff hcounts
    exact hends hd (hfolds hkey hdiff hd) (toNat_min _ _) (toNat_max _ _)
  | same _ _ _ _ => exact hr

/-- Every node is ranged. -/
def AllRanged (es : List IntervalTreeNode) : Prop := ∀ n ∈ es, n.Ranged

theorem ranged_insertStep {root : IntervalTree} {c : InsertCall} (hr : AllRanged root.toList)
    (hfits : InsertFits root c) : AllRanged (insertStep root c).toList := by
  exact (insertStep_descended root c).all hr (ranged_make ..) fun e he hre e' hv =>
    ranged_coalesce hre (hfits e he) hv

/-- A node of `tree2` can be merged: `tree1` has a node the search can start from; no
progression wraps around; and a node that is added has one element. -/
structure MergeRanged (tree1 : IntervalTree) (n : IntervalTreeNode) : Prop where
  notEmpty : tree1 ≠ .nil
  folds : ∀ parent ∈ tree1.visited (foldNode n) (goLeft n),
    SameKey n parent → n.diff = parent.diff → parent.diff ≠ 0 → Folds n parent
  single : (∀ parent ∈ tree1.visited (foldNode n) (goLeft n),
    foldNode n parent = .descend parent) → n.count = 1

instance (tree1 : IntervalTree) (n : IntervalTreeNode) : Decidable (MergeRanged tree1 n) :=
  decidable_of_iff (tree1 ≠ .nil ∧
      (∀ parent ∈ tree1.visited (foldNode n) (goLeft n),
        SameKey n parent → n.diff = parent.diff → parent.diff ≠ 0 → Folds n parent) ∧
      ((∀ parent ∈ tree1.visited (foldNode n) (goLeft n), foldNode n parent = .descend parent) →
        n.count = 1))
    ⟨fun h => ⟨h.1, h.2.1, h.2.2⟩, fun h => ⟨h.notEmpty, h.folds, h.single⟩⟩

theorem ranged_mergeNode {tree1 : IntervalTree} (hr : AllRanged tree1.toList) (hn : n.Ranged)
    (hm : MergeRanged tree1 n) : ∃ tree, mergeNode tree1 n = some tree ∧ AllRanged tree.toList := by
  obtain ⟨tree, hsome, hdesc⟩ := mergeNode_descended hm.notEmpty hn.diff_eq_zero hm.single
  exact ⟨tree, hsome, hdesc.all hr hn fun e he hre e' hv =>
    ranged_foldNode hn hre (hm.folds e he) hv⟩

theorem allRanged_reached {glpk : Glpk} {s : ℕ → IntervalTree}
    (h : Reached InsertFits MergeRanged glpk s) (i : ℕ) : AllRanged (s i).toList :=
  (@forall_reached _ _ glpk AllRanged IntervalTreeNode.Ranged
    (fun _ hn => (List.not_mem_nil hn).elim) (fun _ hes => hes)
    (fun _ _ ht hok => ranged_insertStep ht hok)
    (fun _ _ ht hn hok => ranged_mergeNode ht hn hok) s h i).1

/-! ## The tests on pairs of nodes -/

/-- The second node starts behind the range of the first, in the bytes of the first one's
last element. -/
def Reaches (n m : IntervalTreeNode) : Prop :=
  n.last < m.start ∧ m.start.toNat < n.top + n.bytes

/-- One of the nodes reaches the other over the end of its range. -/
def EdgeOverlap (n m : IntervalTreeNode) : Prop := Reaches n m ∨ Reaches m n

/-- The bytes of a node. -/
theorem le_top_of_mem_addresses {a : ℕ} (h : a ∈ n.addresses) : n.start.toNat ≤ a ∧ a ≤ n.top := by
  obtain ⟨k, hk, rfl⟩ := h
  refine ⟨Nat.le_add_right _ _, ?_⟩
  rw [top]
  exact Nat.add_le_add_left (Nat.mul_le_mul_left _ (by omega)) _

theorem top_mem_addresses (h : 0 < n.count.toNat) : n.top ∈ n.addresses :=
  ⟨n.count.toNat - 1, by omega, rfl⟩

theorem sharesByte_of_reaches (hn : n.Ranged) (hm : m.Ranged) (h : Reaches n m) :
    SharesByte n m := by
  obtain ⟨hlast, hbytes⟩ := h
  rw [UInt64.lt_iff_toNat_lt] at hlast
  have htop := hn.top_le
  exact ⟨n.top, top_mem_addresses hn.count_pos, m.start.toNat, start_mem_progression hm.count_pos,
    m.start.toNat - n.top, by omega, 0, m.bytes_pos, by omega⟩

theorem reaches_of_sharesByte (hlast : n.last < m.start) (h : SharesByte n m) : Reaches n m := by
  refine ⟨hlast, ?_⟩
  obtain ⟨a, ha, b, hb, i, hi, j, -, heq⟩ := h
  have hatop := (le_top_of_mem_addresses ha).2
  have hbstart := (le_top_of_mem_addresses hb).1
  omega

theorem inRange_eq_false_iff : inRange n m = false ↔ m.last < n.start ∨ n.last < m.start := by
  rw [inRange, Bool.and_eq_false_iff, decide_eq_false_iff_not, decide_eq_false_iff_not,
    UInt64.not_le, UInt64.not_le]

/-- Nodes with one element each share a byte if each starts within the other's range. -/
theorem sharesByte_of_bothSingle (hn : n.Ranged) (hm : m.Ranged) (hrange : inRange n m = true)
    (hsingle : bothSingle n m = true) : SharesByte n m := by
  rw [bothSingle, Bool.and_eq_true, decide_eq_true_iff, decide_eq_true_iff] at hsingle
  rw [inRange, Bool.and_eq_true, decide_eq_true_iff, decide_eq_true_iff, hn.single hsingle.2,
    hm.single hsingle.1] at hrange
  have hstart : n.start = m.start := UInt64.le_antisymm hrange.1 hrange.2
  exact ⟨_, start_mem_progression hn.count_pos, _, start_mem_progression hm.count_pos, 0,
    n.bytes_pos, 0, m.bytes_pos, by rw [hstart]⟩

/-- **When the tests on a pair agree with its bytes.**  For nodes of trees in every state
reached by calls that keep the nodes ranged: exactly if neither of the two reaches the other
over the end of its range. -/
theorem pairTests_iff (glpk : Glpk) (s : ℕ → IntervalTree)
    (h : Reached InsertFits MergeRanged glpk s) (i j : ℕ) (node parent : IntervalTreeNode)
    (hnode : node ∈ (s i).toList) (hparent : parent ∈ (s j).toList) :
    ((inRange node parent = false → ¬ SharesByte node parent) ∧
        (inRange node parent = true → bothSingle node parent = true → SharesByte node parent)) ↔
      ¬ EdgeOverlap node parent := by
  have hn := allRanged_reached h i node hnode
  have hp := allRanged_reached h j parent hparent
  constructor
  · rintro ⟨hout, -⟩ (hedge | hedge)
    · exact hout (inRange_eq_false_iff.2 (Or.inr hedge.1)) (sharesByte_of_reaches hn hp hedge)
    · exact hout (inRange_eq_false_iff.2 (Or.inl hedge.1)) (sharesByte_of_reaches hp hn hedge).symm
  · intro hedge
    refine ⟨fun hout hshare => hedge ?_, sharesByte_of_bothSingle hn hp⟩
    rcases inRange_eq_false_iff.1 hout with hlast | hlast
    · exact Or.inr (reaches_of_sharesByte hlast hshare.symm)
    · exact Or.inl (reaches_of_sharesByte hlast hshare)

/-- Writes of four bytes by one instruction of two threads, and by another of a third. -/
def steppingWrites : ℕ → List InsertCall
  | 0 => [⟨0, 0x21, 64, ∅⟩, ⟨8, 0x21, 64, ∅⟩]
  | 1 => [⟨16, 0x21, 64, ∅⟩, ⟨24, 0x21, 64, ∅⟩]
  | _ => [⟨28, 0x21, 65, ∅⟩, ⟨36, 0x21, 65, ∅⟩]

/-- The first two trees are merged to one node, and the third has one that begins where it ends. -/
theorem pairTests_iff_steppingWrites :
    let node : IntervalTreeNode := ⟨0, 24, 4, 0x21, 8, 64, ∅⟩
    let parent : IntervalTreeNode := ⟨28, 36, 2, 0x21, 8, 65, ∅⟩
    ((inRange node parent = false → ¬ SharesByte node parent) ∧
        (inRange node parent = true → bothSingle node parent = true → SharesByte node parent)) ↔
      ¬ EdgeOverlap node parent := by
  have hlist : (merge (load (steppingWrites 0)) (load (steppingWrites 1))).map Rbtree.toList =
      some [⟨0, 24, 4, 0x21, 8, 64, ∅⟩] := by decide
  obtain ⟨tree, hmerge, hlist⟩ := Option.map_eq_some_iff.1 hlist
  have hmerged := @reached_merge InsertFits MergeRanged Glpk.exhaustive _ _ _
    (by decide) (by decide) (by decide) hmerge
  have hthird : Guarded insertStep InsertFits .nil (steppingWrites 2) := by decide
  have hparent : ⟨28, 36, 2, 0x21, 8, 65, ∅⟩ ∈ (load (steppingWrites 2)).toList := by decide
  exact pairTests_iff Glpk.exhaustive _ (@reached_load _ _ _ _ 2 _ hmerged hthird) 0 2 _ _
    (hlist ▸ List.mem_singleton_self _) hparent

/-- The bytes 0 to 7, written at once, and the bytes 4 to 7. -/
def edgeWrites : List Call := [.insert 0 ⟨0, 0x31, 64, ∅⟩, .insert 1 ⟨4, 0x21, 65, ∅⟩]

/-- The two writes share four bytes, but neither starts where the other does. -/
theorem edgeWrites_outOfRange :
    ¬ ∀ s, Reached (fun _ _ => True) (fun _ _ => True) Glpk.exhaustive s →
      ∀ i j, ∀ node ∈ (s i).toList, ∀ parent ∈ (s j).toList,
        (inRange node parent = false → ¬ SharesByte node parent) ∧
          (inRange node parent = true → bothSingle node parent = true →
            SharesByte node parent) := by
  intro hall
  obtain ⟨s, hs⟩ : ∃ s, edgeWrites.foldlM (step Glpk.exhaustive) (fun _ => .nil) = some s :=
    ⟨_, rfl⟩
  have hreached : Reached (fun _ _ => True) (fun _ _ => True) Glpk.exhaustive s :=
    ⟨edgeWrites, ⟨trivial, fun _ _ => ⟨trivial, fun _ _ => trivial⟩⟩, hs⟩
  cases hs
  refine (hall _ hreached 0 1 ⟨0, 0, 1, 0x31, 0, 64, ∅⟩ (by decide) ⟨4, 4, 1, 0x21, 0, 65, ∅⟩
    (by decide)).1 (by decide) ?_
  exact ⟨0, ⟨0, by decide, by decide⟩, 4, ⟨0, by decide, by decide⟩, 4, by decide, 0, by decide,
    by decide⟩

end Tools
end Sword
