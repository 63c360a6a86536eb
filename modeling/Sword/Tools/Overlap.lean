import Sword.Tools.Footprint
import Sword.Tools.SolveMip

/-!
# The search for races: `interval_tree_overlap`

Every node of one tree is looked up in the other, along one path from the root, and
is reported with the nodes of this path that pass three tests: the types race, no
mutex is common, and the two nodes have a byte in common.

* `RACE`, `overlapping`, `sharing`, `reports` — the tests.
* `overlap` — `interval_tree_overlap`; `mem_overlap_iff` says what it reports.
* `Sought`, `overlap_exhaustive_iff` — when the search finds every pair that passes the
  tests.
* `Race` — what should be reported.
* `OverlapComplete`, `mem_overlap_of_race` — when no race of two trees is missed.
* `OverlapSound`, `race_of_mem_overlap` — when none is invented.
-/

namespace Sword
namespace Tools

open Rtl Progression

/-! ## The tests -/

/-- `GET_ACCESS_TYPE(node)`. -/
def getAccessType (n : IntervalTreeNode) : UInt8 := n.sizeType &&& 0x0F

/-- `RACE(node1, node2)`. -/
def RACE (node1 node2 : IntervalTreeNode) : Bool :=
  getAccessType node1 == AccessType.unsafeWrite.code ||
  getAccessType node2 == AccessType.unsafeWrite.code ||
  (getAccessType node1 == AccessType.atomicWrite.code &&
    getAccessType node2 == AccessType.unsafeRead.code) ||
  (getAccessType node2 == AccessType.atomicWrite.code &&
    getAccessType node1 == AccessType.unsafeRead.code)

/-- `overlap(s1, s2)`. -/
def lockOverlap (s1 s2 : Finset UInt64) : Bool := decide (∃ i ∈ s1, i ∈ s2)

/-- `overlapping`: a mutex is common. -/
def overlapping (node parent : IntervalTreeNode) : Bool :=
  if node.mutex.card ≠ 0 ∧ parent.mutex.card ≠ 0 then lockOverlap node.mutex parent.mutex
  else false

/-- The range test. -/
def inRange (node parent : IntervalTreeNode) : Bool :=
  node.start ≤ parent.last && parent.start ≤ node.last

/-- Both nodes have one element. -/
def bothSingle (node parent : IntervalTreeNode) : Bool := parent.count = 1 && node.count = 1

/-- The program asked about two nodes. -/
def mipOf (node parent : IntervalTreeNode) : MipProblem :=
  if parent.start ≥ node.start then problem parent node else problem node parent

/-- `has_overlapping`. -/
def sharing (glpk : Glpk) (node parent : IntervalTreeNode) : Bool :=
  bothSingle node parent ||
    if parent.start ≥ node.start then solveMip glpk parent node else solveMip glpk node parent

/-- The nodes are reported. -/
def reports (glpk : Glpk) (node parent : IntervalTreeNode) : Bool :=
  RACE node parent && !overlapping node parent &&
    (inRange node parent && sharing glpk node parent)

/-- One node of `tree2`. -/
def overlapNode (glpk : Glpk) (s : IntervalTree × List (IntervalTreeNode × IntervalTreeNode))
    (node : IntervalTreeNode) : IntervalTree × List (IntervalTreeNode × IntervalTreeNode) :=
  (s.1.walk (goLeft node) (raise node.last),
    s.2 ++ ((s.1.path (goLeft node)).filter (reports glpk node)).map fun parent => (node, parent))

/-- `interval_tree_overlap`: the first tree, whose `__subtree_last` it writes, and the
pairs it appends to `races`. -/
def overlap (glpk : Glpk) (tree1 tree2 : IntervalTree) :
    IntervalTree × List (IntervalTreeNode × IntervalTreeNode) :=
  tree2.toList.foldl (overlapNode glpk) (tree1, [])

/-- A walk for every one of some nodes changes no node and no path, and reports the
nodes of the paths that pass the tests. -/
theorem foldl_overlapNode (glpk : Glpk) (nodes : List IntervalTreeNode)
    (s : IntervalTree × List (IntervalTreeNode × IntervalTreeNode)) :
    (nodes.foldl (overlapNode glpk) s).1.toList = s.1.toList ∧
      (∀ left, (nodes.foldl (overlapNode glpk) s).1.path left = s.1.path left) ∧
      ∀ pair, pair ∈ (nodes.foldl (overlapNode glpk) s).2 ↔ pair ∈ s.2 ∨
        pair.1 ∈ nodes ∧ pair.2 ∈ s.1.path (goLeft pair.1) ∧
          reports glpk pair.1 pair.2 = true := by
  induction nodes generalizing s with
  | nil => simp
  | cons node nodes ih =>
    obtain ⟨hlist, hpath, hmem⟩ := ih (overlapNode glpk s node)
    rw [List.foldl_cons]
    refine ⟨?_, ?_, ?_⟩
    · rw [hlist, overlapNode, toList_walk]
    · intro left
      rw [hpath, overlapNode, path_walk]
    · rintro ⟨n, parent⟩
      rw [hmem]
      simp only [overlapNode, path_walk, List.mem_append, List.mem_map, List.mem_filter,
        Prod.mk.injEq, List.mem_cons]
      constructor
      · rintro ((h | ⟨p, ⟨hp, hr⟩, rfl, rfl⟩) | ⟨hn, hp, hr⟩)
        · exact Or.inl h
        · exact Or.inr ⟨Or.inl rfl, hp, hr⟩
        · exact Or.inr ⟨Or.inr hn, hp, hr⟩
      · rintro (h | ⟨rfl | hn, hp, hr⟩)
        · exact Or.inl (Or.inl h)
        · exact Or.inl (Or.inr ⟨parent, ⟨hp, hr⟩, rfl, rfl⟩)
        · exact Or.inr ⟨hn, hp, hr⟩

theorem toList_overlap (glpk : Glpk) (tree1 tree2 : IntervalTree) :
    (overlap glpk tree1 tree2).1.toList = tree1.toList := (foldl_overlapNode glpk _ _).1

/-- **What is reported**: the nodes of the search path that pass the tests. -/
theorem mem_overlap_iff {glpk : Glpk} {tree1 tree2 : IntervalTree}
    {node parent : IntervalTreeNode} :
    (node, parent) ∈ (overlap glpk tree1 tree2).2 ↔
      node ∈ tree2.toList ∧ parent ∈ tree1.path (goLeft node) ∧
        reports glpk node parent = true := by
  rw [overlap, (foldl_overlapNode glpk _ _).2.2]
  simp

/-! ## Is every pair found -/

/-- The parent has a position in the tree such that the search for the node turns, at every
node above it, to the side it is on. -/
def Sought (tree : IntervalTree) (node parent : IntervalTreeNode) : Prop :=
  ∃ (above : List (Crumb IntervalTreeNode UInt64)) (c : Color) (l : IntervalTree) (b : UInt64)
    (r : IntervalTree), zip above (.node c l parent b r) = tree ∧
      ∀ k ∈ above, node.start < k.entry.start ↔ k.dir = .left

theorem mem_path_iff_sought {tree : IntervalTree} {node parent : IntervalTreeNode} :
    parent ∈ tree.path (goLeft node) ↔ Sought tree node parent := by
  rw [mem_path_iff, Sought]
  simp only [goLeft, decide_eq_decide]

/-- **When the search is exhaustive**: it reports exactly the pairs that pass its tests, if
and only if every such pair is sought. -/
theorem overlap_exhaustive_iff (glpk : Glpk) (calls1 calls2 : List InsertCall) :
    (∀ node parent, (node, parent) ∈ (overlap glpk (load calls1) (load calls2)).2 ↔
        node ∈ (load calls2).toList ∧ parent ∈ (load calls1).toList ∧
          reports glpk node parent = true) ↔
      ∀ node ∈ (load calls2).toList, ∀ parent ∈ (load calls1).toList,
        reports glpk node parent = true → Sought (load calls1) node parent := by
  simp only [mem_overlap_iff, mem_path_iff_sought]
  constructor
  · intro h node hn parent hp hr
    exact ((h node parent).2 ⟨hn, hp, hr⟩).2.1
  · intro h node parent
    constructor
    · rintro ⟨hn, hs, hr⟩
      exact ⟨hn, mem_toList_of_mem_path (mem_path_iff_sought.2 hs), hr⟩
    · rintro ⟨hn, hp, hr⟩
      exact ⟨hn, h node hn parent hp hr, hr⟩

/-- Three writes of four bytes, by three instructions. -/
def threeWrites : List InsertCall := [⟨100, 0x21, 64, ∅⟩, ⟨200, 0x21, 65, ∅⟩, ⟨300, 0x21, 66, ∅⟩]

/-- A loop that writes every sixtieth word from 0 to 300. -/
def stridedWrites : List InsertCall :=
  [0, 60, 120, 180, 240, 300].map fun address => ⟨address, 0x21, 67, ∅⟩

/-- The loop writes to 300 too, but the search for it goes left at the root, 200. -/
theorem stridedWrites_not_found :
    ¬ ∀ node parent, (node, parent) ∈
        (overlap Glpk.exhaustive (load threeWrites) (load stridedWrites)).2 ↔
      node ∈ (load stridedWrites).toList ∧ parent ∈ (load threeWrites).toList ∧
        reports Glpk.exhaustive node parent = true := by
  let node : IntervalTreeNode := ⟨0, 300, 6, 0x21, 60, 67, ∅⟩
  let parent : IntervalTreeNode := ⟨300, 300, 1, 0x21, 0, 66, ∅⟩
  intro h
  have hmip : solveMip Glpk.exhaustive parent node = true := by
    rw [solveMip_iff Glpk.documented_exhaustive]
    exact ⟨by decide, 0, by decide, 5, by decide, 0, by decide, 0, by decide, by decide⟩
  have hshare : sharing Glpk.exhaustive node parent = true := by
    rw [sharing, Bool.or_eq_true]
    right
    rw [if_pos (by decide)]
    exact hmip
  have hreports : reports Glpk.exhaustive node parent = true := by
    rw [reports, hshare]
    decide
  have hfound := (h node parent).2 ⟨by decide, by decide, hreports⟩
  rw [mem_overlap_iff] at hfound
  exact absurd hfound.2.1 (by decide)

/-! ## What should be reported -/

theorem overlapping_iff {node parent : IntervalTreeNode} :
    overlapping node parent = true ↔ ¬ Disjoint node.mutex parent.mutex := by
  rw [Finset.not_disjoint_iff, overlapping, lockOverlap]
  split
  · exact decide_eq_true_iff
  · rename_i h
    constructor
    · exact fun h => Bool.noConfusion h
    · rintro ⟨i, hi, hi'⟩
      exact absurd ⟨Finset.card_ne_zero_of_mem hi, Finset.card_ne_zero_of_mem hi'⟩ h

theorem RACE_comm (n m : IntervalTreeNode) : RACE n m = RACE m n := by
  unfold RACE
  generalize (getAccessType n == _) = a, (getAccessType n == _) = b,
    (getAccessType n == _) = c, (getAccessType m == _) = d, (getAccessType m == _) = e,
    (getAccessType m == _) = f
  revert a b c d e f
  decide

/-- The types race and no mutex is common. -/
def Conflict (node parent : IntervalTreeNode) : Prop :=
  RACE node parent = true ∧ Disjoint node.mutex parent.mutex

/-- The two nodes should be reported. -/
def Race (node parent : IntervalTreeNode) : Prop := Conflict node parent ∧ SharesByte node parent

theorem reports_iff {glpk : Glpk} {node parent : IntervalTreeNode} :
    reports glpk node parent = true ↔
      Conflict node parent ∧ inRange node parent = true ∧ sharing glpk node parent = true := by
  have hlock : (!overlapping node parent) = true ↔ Disjoint node.mutex parent.mutex := by
    rw [Bool.not_eq_true', ← Bool.not_eq_true, overlapping_iff, not_not]
  rw [reports, Bool.and_eq_true, Bool.and_eq_true, Bool.and_eq_true, hlock]
  exact Iff.rfl

/-! ## The condition for completeness -/

/-- The row of the program asked about two nodes did not have to be rounded. -/
def MipExact (node parent : IntervalTreeNode) : Prop :=
  if parent.start ≥ node.start then RowExact parent node else RowExact node parent

/-- Nodes that race are on a search path, pass the range test, and, if the question
goes to GLPK, access more than one byte, with a row that did not have to be
rounded. -/
def OverlapComplete (tree1 tree2 : IntervalTree) : Prop :=
  ∀ node ∈ tree2.toList, ∀ parent ∈ tree1.toList, Race node parent →
    parent ∈ tree1.path (goLeft node) ∧ inRange node parent = true ∧
      (bothSingle node parent = true ∨
        1 < node.bytes ∧ 1 < parent.bytes ∧ MipExact node parent)

theorem sharing_of_sharesByte {glpk : Glpk} (hg : glpk.Documented)
    {node parent : IntervalTreeNode} (hn : node.WellFormed) (hp : parent.WellFormed)
    (h : SharesByte node parent)
    (hb : bothSingle node parent = true ∨
      1 < node.bytes ∧ 1 < parent.bytes ∧ MipExact node parent) :
    sharing glpk node parent = true := by
  have hsolve : ∀ {n m : IntervalTreeNode}, n.WellFormed → m.WellFormed → SharesByte n m →
      1 < n.bytes → 1 < m.bytes → RowExact n m → solveMip glpk n m = true := by
    intro n m hn hm h hnb hmb hrow
    rw [solveMip_iff hg]
    refine ⟨⟨hn.count_pos, hm.count_pos, ?_, ?_⟩, MipProblem.feasible_of_within
      ((feasible_within_iff hn.count_pos hm.count_pos hrow).2 h)⟩
    · exact Nat.sub_pos_of_lt hnb
    · exact Nat.sub_pos_of_lt hmb
  rw [sharing, Bool.or_eq_true]
  rcases hb with hb | ⟨hnb, hpb, hrow⟩
  · exact Or.inl hb
  · right
    rw [MipExact] at hrow
    split at hrow
    all_goals rename_i hle
    · rw [if_pos hle]
      exact hsolve hp hn h.symm hpb hnb hrow
    · rw [if_neg hle]
      exact hsolve hn hp h hnb hpb hrow

/-- **No race is missed** between two trees that meet the condition. -/
theorem mem_overlap_of_race {glpk : Glpk} (hg : glpk.Documented) {tree1 tree2 : IntervalTree}
    (hwf1 : AllWellFormed tree1.toList) (hwf2 : AllWellFormed tree2.toList)
    (h : OverlapComplete tree1 tree2) {node parent : IntervalTreeNode}
    (hn : node ∈ tree2.toList) (hp : parent ∈ tree1.toList) (hrace : Race node parent) :
    (node, parent) ∈ (overlap glpk tree1 tree2).2 := by
  obtain ⟨hpath, hrange, hb⟩ := h node hn parent hp hrace
  rw [mem_overlap_iff, reports_iff]
  exact ⟨hn, hpath, hrace.1, hrange,
    sharing_of_sharesByte hg (hwf2 node hn) (hwf1 parent hp) hrace.2 hb⟩

/-! ## The condition for soundness -/

/-- Where nodes that are in conflict and in range are not both single, and the program
has a solution, it has one within the elements of both, and its row did not have to
be rounded. -/
def OverlapSound (tree1 tree2 : IntervalTree) : Prop :=
  ∀ node ∈ tree2.toList, ∀ parent ∈ tree1.path (goLeft node), Conflict node parent →
    inRange node parent = true → bothSingle node parent = false →
      (mipOf node parent).Feasible →
        MipExact node parent ∧ (mipOf node parent).within.Feasible

theorem sharesByte_of_sharing {glpk : Glpk} (hg : glpk.Documented)
    {node parent : IntervalTreeNode} (hn : node.WellFormed) (hp : parent.WellFormed)
    (hrange : inRange node parent = true)
    (hin : bothSingle node parent = false → (mipOf node parent).Feasible →
      MipExact node parent ∧ (mipOf node parent).within.Feasible)
    (h : sharing glpk node parent = true) : SharesByte node parent := by
  cases hb : bothSingle node parent with
  | true =>
    -- single nodes in range of each other have one address
    rw [bothSingle, Bool.and_eq_true, decide_eq_true_iff, decide_eq_true_iff] at hb
    rw [inRange, Bool.and_eq_true, decide_eq_true_iff, decide_eq_true_iff,
      UInt64.le_iff_toNat_le, UInt64.le_iff_toNat_le] at hrange
    have hnl := hn.last_eq
    have hpl := hp.last_eq
    rw [hn.diff_eq_zero.2 hb.2] at hnl
    rw [hp.diff_eq_zero.2 hb.1] at hpl
    have hzero : (0 : UInt32).toNat = 0 := rfl
    rw [hzero, Nat.zero_mul] at hnl hpl
    refine ⟨_, start_mem_progression hn.count_pos, _, start_mem_progression hp.count_pos,
      0, node.bytes_pos, 0, parent.bytes_pos, ?_⟩
    omega
  | false =>
    have hin := hin hb
    rw [sharing, hb, Bool.false_or] at h
    rw [mipOf, MipExact] at hin
    split at h
    all_goals rename_i hle
    · rw [if_pos hle, if_pos hle] at hin
      obtain ⟨hrow, hwithin⟩ := hin ((solveMip_iff hg).1 h).2
      exact ((feasible_within_iff hp.count_pos hn.count_pos hrow).1 hwithin).symm
    · rw [if_neg hle, if_neg hle] at hin
      obtain ⟨hrow, hwithin⟩ := hin ((solveMip_iff hg).1 h).2
      exact (feasible_within_iff hn.count_pos hp.count_pos hrow).1 hwithin

/-- **No race is invented** between two trees that meet the condition. -/
theorem race_of_mem_overlap {glpk : Glpk} (hg : glpk.Documented) {tree1 tree2 : IntervalTree}
    (hwf1 : AllWellFormed tree1.toList) (hwf2 : AllWellFormed tree2.toList)
    (h : OverlapSound tree1 tree2) {node parent : IntervalTreeNode}
    (hmem : (node, parent) ∈ (overlap glpk tree1 tree2).2) :
    node ∈ tree2.toList ∧ parent ∈ tree1.toList ∧ Race node parent := by
  rw [mem_overlap_iff, reports_iff] at hmem
  obtain ⟨hn, hpath, hconf, hrange, hshare⟩ := hmem
  have hp := mem_toList_of_mem_path hpath
  exact ⟨hn, hp, hconf, sharesByte_of_sharing hg (hwf2 node hn) (hwf1 parent hp) hrange
    (h node hn parent hpath hconf hrange) hshare⟩

end Tools
end Sword
