import Sword.Tools.IterNext

/-!
# Interval trees as sorted lists: `interval_tree_insert`, `interval_tree_remove`

Nodes that are linked as they are, and unlinked again.  What a tree is for is the list of its
nodes by their start, those with the same start in the order in which they came; the tree
is to this list what its colors and its `__subtree_last` make fast.

* `insertNode`, `removeNode` — `interval_tree_insert` and `interval_tree_remove`.
* `Op`, `opStep` — a call on a tree; `listStep` — the same on a list.
* `Implements` — the tree is the list, balanced, with exact maxima.
* `implements_step`, `implements_run` — a call, and every run of calls, keeps this; iterating
  over a range then gives the nodes of the list that intersect it.
-/

namespace Sword
namespace Tools

open Cursor Run

/-! ## The calls -/

/-- `interval_tree_insert`. -/
def insertNode (root : IntervalTree) (n : IntervalTreeNode) : IntervalTree :=
  descend computeSubtreeLast .descend (goLeft n) (raise n.last) n n.last [] root

/-- `interval_tree_remove`. -/
def removeNode (n : IntervalNode) : Option IntervalTree :=
  (Callbacks.declared computeSubtreeLast).erase n

/-- A call: a node is inserted, or the node removed that is the one of this number in the tree. -/
inductive Op
  | insert (n : IntervalTreeNode)
  | remove (i : ℕ)
  deriving DecidableEq

/-- A call on a tree.  There is no result if the number is not one of a node, or where erasing
follows a missing sibling. -/
def opStep (root : IntervalTree) : Op → Option IntervalTree
  | .insert n => some (insertNode root n)
  | .remove i => (root.nodes [])[i]?.bind removeNode

/-! ## The list -/

/-- A call on the list. -/
def listStep (es : List IntervalTreeNode) : Op → List IntervalTreeNode
  | .insert n => es.orderedInsert (fun m k => m.start < k.start) n
  | .remove i => es.eraseIdx i

/-- The number is one of an element. -/
def InRange (es : List IntervalTreeNode) : Op → Prop
  | .insert _ => True
  | .remove i => i < es.length

/-- The tree has the elements of the list for nodes, in this order; and it is sorted, balanced, and
has exact maxima. -/
structure Implements (root : IntervalTree) (es : List IntervalTreeNode) : Prop where
  toList_eq : root.toList = es
  ordered : Ordered es
  isRedBlack : root.IsRedBlack
  maxExact : MaxExact root

theorem implements_nil : Implements .nil [] := ⟨rfl, List.Pairwise.nil, isRedBlack_nil, trivial⟩

/-! ## Insertion -/

variable {n : IntervalTreeNode} {root : IntervalTree}

/-- The place of a new node: behind the nodes that do not start behind it. -/
theorem place_descend (h : Ordered root.toList) :
    (root.place .descend (goLeft n)).stop = none ∧
      (∀ e ∈ (root.place .descend (goLeft n)).front, ¬ n.start < e.start) ∧
        ∀ e ∈ (root.place .descend (goLeft n)).behind, n.start < e.start := by
  induction root with
  | nil => exact ⟨rfl, nofun, nofun⟩
  | node c l e b r ihl ihr =>
    obtain ⟨hrest, hfront, hbehind⟩ := ordered_place.1 h
    rw [Ordered, List.map_append, List.pairwise_append] at hrest
    rw [Rbtree.place]
    dsimp only
    split
    · rename_i hgo
      obtain ⟨hstop, hf, hb⟩ := ihl hrest.1
      have hlt : n.start < e.start := of_decide_eq_true hgo
      refine ⟨hstop, hf, fun d hd => ?_⟩
      rcases List.mem_append.1 hd with hd | hd
      · exact hb d hd
      · rcases List.mem_cons.1 hd with rfl | hd
        · exact hlt
        · exact UInt64.lt_of_lt_of_le hlt (hbehind d hd)
    · rename_i hgo
      obtain ⟨hstop, hf, hb⟩ := ihr hrest.2.1
      have hle : e.start ≤ n.start := UInt64.not_lt.1 fun hlt => hgo (decide_eq_true hlt)
      refine ⟨hstop, fun d hd => ?_, hb⟩
      rcases List.mem_append.1 hd with hd | hd
      · exact UInt64.not_lt.2 (UInt64.le_trans (hfront d hd) hle)
      · rcases List.mem_cons.1 hd with rfl | hd
        · exact UInt64.not_lt.2 hle
        · exact hf d hd

theorem orderedInsert_append {front behind : List IntervalTreeNode}
    (hfront : ∀ e ∈ front, ¬ n.start < e.start) (hbehind : ∀ e ∈ behind, n.start < e.start) :
    (front ++ behind).orderedInsert (fun m k => m.start < k.start) n = front ++ n :: behind := by
  induction front with
  | nil =>
    cases behind with
    | nil => rfl
    | cons e behind =>
      rw [List.nil_append, List.orderedInsert, if_pos (hbehind e List.mem_cons_self)]
      rfl
  | cons e front ih =>
    rw [List.cons_append, List.orderedInsert, if_neg (hfront e List.mem_cons_self),
      ih fun d hd => hfront d (List.mem_cons_of_mem _ hd)]
    rfl

/-- **Insertion** puts the node behind those with the same start. -/
theorem toList_insertNode (h : Ordered root.toList) : (insertNode root n).toList =
    root.toList.orderedInsert (fun m k => m.start < k.start) n := by
  obtain ⟨hstop, hfront, hbehind⟩ := @place_descend n _ h
  have hsplit := toList_eq_place (.descend : IntervalTreeNode → _) (goLeft n) root
  rw [hstop] at hsplit
  rw [insertNode, toList_descend_place _ _ _ fun e _ e' hv => (Visit.descend.inj hv).symm,
    Place.landed, hstop, hsplit]
  exact (List.append_nil _).trans (orderedInsert_append hfront hbehind).symm

theorem implements_insert {es : List IntervalTreeNode} (h : Implements root es) :
    Implements (insertNode root n) (listStep es (.insert n)) := by
  obtain ⟨rfl, hord, ⟨k, hbal⟩, hmax⟩ := h
  obtain ⟨hstop, hfront, hbehind⟩ := @place_descend n _ hord
  refine ⟨toList_insertNode hord, ?_, balanced_descend rfl hbal, ?_⟩
  · have hsplit := toList_eq_place (.descend : IntervalTreeNode → _) (goLeft n) root
    rw [hstop] at hsplit
    rw [listStep]
    rw [hsplit] at hord ⊢
    rw [Option.toList_none, List.nil_append, orderedInsert_append hfront hbehind]
    exact ordered_place.2 ⟨hord, fun d hd => UInt64.not_lt.1 (hfront d hd),
      fun d hd => UInt64.le_of_lt (hbehind d hd)⟩
  · exact @maxExact_descend n _ IntervalTreeNode.last _ n
      (fun _ _ hv => (Visit.descend.inj hv).symm) (fun _ _ hv => by cases hv) hmax
      fun hne => absurd hstop hne

/-! ## Removal -/

/-- **Removal** takes away the node of this number. -/
theorem toList_removeNode {i : ℕ} {m : IntervalNode} {t : IntervalTree}
    (hm : (root.nodes [])[i]? = some m) (h : removeNode m = some t) :
    t.toList = root.toList.eraseIdx i := by
  have hroot : m.root = root := root_of_mem_nodes (List.mem_of_getElem? hm)
  have hlen := length_before hm
  rw [show (before []).length = 0 from rfl, Nat.zero_add] at hlen
  rw [Callbacks.toList_erase h, ← hroot, m.toList_root, ← hlen]
  rw [show before m.path ++ (m.left.toList ++ m.entry :: m.right.toList) ++ after m.path =
    (before m.path ++ m.left.toList) ++ m.entry :: (m.right.toList ++ after m.path) by simp]
  rw [List.eraseIdx_append_of_length_le (Nat.le_refl _), Nat.sub_self]
  simp

theorem implements_remove {es : List IntervalTreeNode} {i : ℕ} (h : Implements root es)
    (hi : i < es.length) :
    ∃ t, opStep root (.remove i) = some t ∧ Implements t (listStep es (.remove i)) := by
  obtain ⟨rfl, hord, hbal, hmax⟩ := h
  rw [← length_nodes []] at hi
  have hm : (root.nodes [])[i]? = some (root.nodes [])[i] := List.getElem?_eq_getElem hi
  generalize (root.nodes [])[i] = m at hm
  have hroot : m.root = root := root_of_mem_nodes (List.mem_of_getElem? hm)
  rw [← hroot] at hbal hmax
  obtain ⟨t, ht, hbal⟩ := @Callbacks.isRedBlack_erase _ _ (.declared computeSubtreeLast) _ hbal
  refine ⟨t, by rw [opStep, hm]; exact ht, toList_removeNode hm ht, ?_, hbal, ?_⟩
  · exact hord.sublist ((List.eraseIdx_sublist _ _).map _)
  · exact Callbacks.annotated_erase summary_maxLast hmax ht

/-! ## Runs -/

/-- **A call** on a tree does what it does on the list. -/
theorem implements_step {es : List IntervalTreeNode} {op : Op} (h : Implements root es)
    (hop : InRange es op) :
    ∃ t, opStep root op = some t ∧ Implements t (listStep es op) := by
  cases op with
  | insert n => exact ⟨_, rfl, implements_insert h⟩
  | remove i => exact implements_remove h hop

theorem implements_foldlM {es : List IntervalTreeNode} (ops : List Op) (h : Implements root es)
    (hg : Guarded listStep InRange es ops) :
    ∃ t, ops.foldlM opStep root = some t ∧ Implements t (exec listStep es ops) := by
  induction ops generalizing root es with
  | nil => exact ⟨root, rfl, h⟩
  | cons op ops ih =>
    obtain ⟨t, ht, himp⟩ := implements_step h hg.1
    rw [List.foldlM_cons, ht]
    exact ih himp hg.2

/-- Iterating over a range gives the nodes of the list that intersect it, and ends. -/
theorem Implements.iterate {es : List IntervalTreeNode} (h : Implements root es)
    (start last : UInt64) {turns : ℕ} (hturns : es.length ≤ turns) :
    (follow (iterNext start last) turns (iterFirstNode start last root)).map Node.entry =
      es.filter (Intersects start last ·) := by
  obtain ⟨rfl, hord, -, hmax⟩ := h
  rw [follow_iterNext start last hmax hord hturns, ← entry_nodes [], List.filter_map]
  rfl

/-- **Every run of calls** that removes only nodes that are there goes through, and leaves the tree
the sorted list, whatever the order of the calls; and iterating over any range then gives the
nodes of the list that intersect it, each once and in order, and ends: turns beyond the number
of nodes give no more. -/
theorem implements_run (ops : List Op) (h : Guarded listStep InRange [] ops) :
    ∃ root, ops.foldlM opStep .nil = some root ∧ Implements root (exec listStep [] ops) ∧
      ∀ start last more, (follow (iterNext start last) ((exec listStep [] ops).length + more)
        (iterFirstNode start last root)).map Node.entry =
          (exec listStep [] ops).filter (Intersects start last ·) := by
  obtain ⟨root, hrun, himp⟩ := implements_foldlM ops implements_nil h
  exact ⟨root, hrun, himp, fun start last more => himp.iterate start last (Nat.le_add_right _ more)⟩

/-- Three nodes inserted, two of them with the same start, and the last of them in the tree
removed. -/
def threeInserts : List Op :=
  [.insert (.make 8 15 0x31 64 ∅), .insert (.make 0 7 0x31 65 ∅), .insert (.make 0 3 0x21 66 ∅),
    .remove 2]

theorem implements_run_threeInserts :
    ∃ root, threeInserts.foldlM opStep .nil = some root ∧
      Implements root (exec listStep [] threeInserts) ∧
      ∀ start last more, (follow (iterNext start last)
        ((exec listStep [] threeInserts).length + more)
          (iterFirstNode start last root)).map Node.entry =
            (exec listStep [] threeInserts).filter (Intersects start last ·) :=
  implements_run threeInserts
    ⟨trivial, trivial, trivial, by show 2 < List.length _; decide, trivial⟩

end Tools
end Sword
