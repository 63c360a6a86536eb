import Sword.Tools.Erase
import Sword.Tools.SubtreeLast

/-!
# Iterating over intersecting intervals: `interval_tree_iter_next`

A query gives one node; the next one is looked for from there, on the right and then above,
past the subtrees whose `__subtree_last` says that nothing in them reaches the range.

* `searchFrom`, `iterFirstNode` — `_subtree_search` and `interval_tree_iter_first`, with the place
  of the node they find; `entry_iterFirstNode` — it is the node that `iterFirst` gives.
* `iterNext` — `interval_tree_iter_next`.
* `searchFrom_eq`, `iterUp_eq` — what they find is the first of the nodes still to come that
  intersects the range.
* `follow_iterNext` — the iteration comes to every intersecting node once, in order, and ends.
-/

namespace Sword
namespace Tools

open Cursor

/-- A node of an interval tree. -/
abbrev IntervalNode := Node IntervalTreeNode UInt64

instance (start last : UInt64) (n : IntervalTreeNode) : Decidable (Intersects start last n) :=
  inferInstanceAs (Decidable (_ ∧ _))

section

variable (start last : UInt64)

/-- `_subtree_search`. -/
def searchFrom : List (Crumb IntervalTreeNode UInt64) → IntervalTree → Option IntervalNode
  | _, .nil => none
  | path, .node c l e b r =>
    if l.augmented?.any (start ≤ ·) then searchFrom (⟨.left, c, e, b, r⟩ :: path) l
    else if e.start ≤ last then
      if start ≤ e.last then some ⟨path, c, l, e, b, r⟩
      else if r.augmented?.any (start ≤ ·) then searchFrom (⟨.right, c, e, b, l⟩ :: path) r
      else none
    else none

/-- `interval_tree_iter_first`. -/
def iterFirstNode (root : IntervalTree) : Option IntervalNode :=
  match root with
  | .nil => none
  | .node _ _ _ b _ => if b < start then none else searchFrom start last [] root

/-- The loop of `interval_tree_iter_next`, from where it moves up. -/
def iterUp : List (Crumb IntervalTreeNode UInt64) → IntervalTree → Option IntervalNode
  | [], _ => none
  | k :: path, t =>
    -- up until it comes from a left child
    if k.dir = .right then iterUp path (k.plug t)
    else if last < k.entry.start then none
    else if start ≤ k.entry.last then some (.above k path t)
    else if k.sibling.augmented?.any (start ≤ ·) then
      searchFrom start last ((Node.above k path t).crumb .right :: path) k.sibling
    else iterUp path (k.plug t)

/-- `interval_tree_iter_next`. -/
def iterNext (n : IntervalNode) : Option IntervalNode :=
  if n.right.augmented?.any (start ≤ ·) then
    searchFrom start last (n.crumb .right :: n.path) n.right
  else iterUp start last n.path n.subtree

/-- The node intersects the range. -/
def hit (n : IntervalNode) : Bool := Intersects start last n.entry

end

variable {start last : UInt64} {path : List (Crumb IntervalTreeNode UInt64)} {t : IntervalTree}

theorem entry_searchFrom : (searchFrom start last path t).map Node.entry =
    subtreeSearch start last t := by
  induction t generalizing path with
  | nil => rfl
  | node c l e b r ihl ihr =>
    rw [searchFrom, subtreeSearch]
    split
    · exact ihl
    · split
      · split
        · rfl
        · split
          · exact ihr
          · rfl
      · rfl

theorem entry_iterFirstNode (root : IntervalTree) :
    (iterFirstNode start last root).map Node.entry = iterFirst root start last := by
  cases root with
  | nil => rfl
  | node c l e b r =>
    rw [iterFirstNode, iterFirst]
    split
    · rfl
    · exact entry_searchFrom

/-! ## The first of the nodes still to come -/

section Lists

variable {xs ys : List IntervalNode}

theorem filter_hit_of_late (h : ∀ m ∈ xs, last < m.entry.start) :
    xs.filter (hit start last) = [] := by
  refine List.filter_eq_nil_iff.2 fun m hm hhit => ?_
  exact absurd (of_decide_eq_true hhit).1 (UInt64.not_le.2 (h m hm))

theorem filter_hit_of_early (h : ∀ m ∈ xs, ¬ start ≤ m.entry.last) :
    xs.filter (hit start last) = [] := by
  refine List.filter_eq_nil_iff.2 fun m hm hhit => ?_
  exact h m hm (of_decide_eq_true hhit).2

/-- Where one of the first nodes ends late enough, there is no need to look behind them: if it
starts too late, so do the nodes behind it. -/
theorem head?_filter_hit (hord : Ordered ((xs ++ ys).map Node.entry))
    (h : ∃ m ∈ xs, start ≤ m.entry.last) :
    ((xs ++ ys).filter (hit start last)).head? = (xs.filter (hit start last)).head? := by
  rw [List.filter_append, List.head?_append]
  cases hx : xs.filter (hit start last) with
  | cons n ns => rfl
  | nil =>
    obtain ⟨m, hm, hstart⟩ := h
    have hlate : last < m.entry.start := by
      have hmiss : ¬ hit start last m = true := List.filter_eq_nil_iff.1 hx m hm
      refine UInt64.not_le.1 fun hle => hmiss (decide_eq_true ⟨hle, hstart⟩)
    rw [Ordered, List.map_map, List.map_append, List.pairwise_append] at hord
    rw [filter_hit_of_late fun k hk => UInt64.lt_of_lt_of_le hlate
      (hord.2.2 _ (List.mem_map_of_mem hm) _ (List.mem_map_of_mem hk))]
    rfl

end Lists

theorem any_nodes_iff (h : MaxExact t) : t.augmented?.any (start ≤ ·) = true ↔
    ∃ m ∈ t.nodes path, start ≤ m.entry.last := by
  rw [any_augmented?_iff h, ← entry_nodes path]
  simp

section Steps

variable {ys : List IntervalNode} {rest : Option IntervalNode}

/-- A subtree is searched if its `__subtree_last` says that it reaches the range. -/
theorem search_or (hmax : MaxExact t) (hord : Ordered ((t.nodes path ++ ys).map Node.entry))
    (ht : searchFrom start last path t = ((t.nodes path).filter (hit start last)).head?)
    (hrest : rest = (ys.filter (hit start last)).head?) :
    (if t.augmented?.any (start ≤ ·) then searchFrom start last path t else rest) =
      ((t.nodes path ++ ys).filter (hit start last)).head? := by
  split
  · rename_i hany
    rw [ht, head?_filter_hit hord ((any_nodes_iff hmax).1 hany)]
  · rename_i hany
    have hearly : (t.nodes path).filter (hit start last) = [] :=
      filter_hit_of_early fun m hm hle => hany ((any_nodes_iff hmax).2 ⟨m, hm, hle⟩)
    rw [List.filter_append, hearly, hrest]
    rfl

/-- A node is looked at, and if it starts too late, so do the others. -/
theorem node_or {n : IntervalNode} (hord : Ordered ((n :: ys).map Node.entry))
    (hrest : rest = (ys.filter (hit start last)).head?) :
    (if n.entry.start ≤ last then if start ≤ n.entry.last then some n else rest else none) =
      ((n :: ys).filter (hit start last)).head? := by
  split
  · rename_i hlast
    split
    · rename_i hstart
      have hhit : hit start last n = true := decide_eq_true ⟨hlast, hstart⟩
      rw [List.filter_cons_of_pos hhit]
      rfl
    · rename_i hstart
      rw [List.filter_cons_of_neg fun hhit => hstart (of_decide_eq_true hhit).2, hrest]
  · rename_i hlate
    have hlate := UInt64.not_le.1 hlate
    rw [Ordered, List.map_cons, List.map_cons, List.pairwise_cons] at hord
    rw [filter_hit_of_late]
    · rfl
    · intro m hm
      rcases List.mem_cons.1 hm with rfl | hm
      · exact hlate
      · exact UInt64.lt_of_lt_of_le hlate
          (hord.1 _ (List.mem_map_of_mem (List.mem_map_of_mem hm)))

end Steps

/-- **What a search finds**: the first node of the subtree that intersects the range. -/
theorem searchFrom_eq (hmax : MaxExact t) (hord : Ordered t.toList) :
    searchFrom start last path t = ((t.nodes path).filter (hit start last)).head? := by
  induction t generalizing path with
  | nil => rfl
  | node c l e b r ihl ihr =>
    rw [← entry_nodes path, Rbtree.nodes] at hord
    have hsplit := hord
    rw [Ordered, List.map_append, List.map_append, List.pairwise_append] at hsplit
    obtain ⟨hl, hnode, -⟩ := hsplit
    have hr := (List.pairwise_cons.1 hnode).2
    have hnil := (List.append_nil (r.nodes (⟨.right, c, e, b, l⟩ :: path))).symm
    rw [Rbtree.nodes]
    refine search_or hmax.1 hord (ihl hmax.1 ?_) (node_or hnode ?_)
    · rwa [← entry_nodes]
    · rw [hnil]
      refine search_or hmax.2.2 ?_ (ihr hmax.2.2 ?_) rfl
      · rwa [← hnil]
      · rwa [← entry_nodes]

/-- The nodes behind a subtree, by their entries. -/
theorem entry_afterToward : (afterToward .right path t).map Node.entry = after path := by
  induction path generalizing t with
  | nil => rfl
  | cons k path ih =>
    rw [afterToward, after]
    cases hk : k.dir with
    | right => exact ih
    | left =>
      rw [if_neg (by decide), List.map_append, List.map_cons, ih]
      exact congrArg (· ++ after path) (congrArg (k.entry :: ·) (entry_nodes _ k.sibling))

theorem ordered_after (hord : Ordered (zip path t).toList) : Ordered (after path) := by
  rw [toList_zip, Ordered, List.map_append, List.pairwise_append] at hord
  exact hord.2.1

/-- **What is found above**: the first node behind the subtree that intersects the range. -/
theorem iterUp_eq (hmax : MaxExact (zip path t)) (hord : Ordered (zip path t).toList) :
    iterUp start last path t = ((afterToward .right path t).filter (hit start last)).head? := by
  induction path generalizing t with
  | nil => rfl
  | cons k path ih =>
    have hafter : Ordered ((afterToward .right (k :: path) t).map Node.entry) := by
      rw [entry_afterToward]
      exact ordered_after hord
    rw [iterUp, afterToward]
    rw [afterToward] at hafter
    split
    · exact ih hmax hord
    · rename_i hk
      rw [if_neg hk, List.cons_append] at hafter
      rw [List.cons_append]
      have hplug : MaxExact (k.plug t) := annotated_of_zip hmax
      have hsib : MaxExact k.sibling := annotated_sibling hplug
      have hrest : Ordered _ := (List.pairwise_cons.1 hafter).2
      have hord' : Ordered k.sibling.toList := by
        rw [← entry_nodes ((Node.above k path t).crumb .right :: path)]
        rw [Ordered, List.map_append, List.map_append, List.pairwise_append] at hrest
        exact hrest.1
      rw [← node_or hafter (search_or hsib hrest (searchFrom_eq hsib hord') (ih hmax hord))]
      by_cases hlate : last < k.entry.start
      · rw [if_pos hlate]
        exact (if_neg (UInt64.not_le.2 hlate)).symm
      · rw [if_neg hlate]
        exact (if_pos (UInt64.not_lt.1 hlate)).symm

/-- **`interval_tree_iter_first`**: the first node of the tree that intersects the range. -/
theorem iterFirstNode_eq (hmax : MaxExact t) (hord : Ordered t.toList) :
    iterFirstNode start last t = ((t.nodes []).filter (hit start last)).head? := by
  cases t with
  | nil => rfl
  | node c l e b r =>
    rw [iterFirstNode]
    split
    · rename_i hlt
      rw [filter_hit_of_early]
      · rfl
      · intro m hm hle
        have hmem : m.entry ∈ (Rbtree.node c l e b r).toList := by
          rw [← entry_nodes []]
          exact List.mem_map_of_mem hm
        have hb := UInt64.le_trans hle (hmax.2.1.2 _ hmem)
        exact UInt64.not_lt.2 hb hlt
    · exact searchFrom_eq hmax hord

/-- **`interval_tree_iter_next`**: the first node behind this one that intersects the range. -/
theorem iterNext_eq {n : IntervalNode} (hmax : MaxExact n.root) (hord : Ordered n.root.toList) :
    iterNext start last n = ((n.rest .right).filter (hit start last)).head? := by
  have hsub : MaxExact n.subtree := annotated_of_zip hmax
  have hrest : (n.rest .right).map Node.entry = n.right.toList ++ after n.path := by
    rw [Node.rest, List.map_append, entry_afterToward]
    exact congrArg (· ++ after n.path) (entry_nodes _ n.right)
  have hsuffix : n.right.toList ++ after n.path <:+ n.root.toList := by
    rw [n.toList_root]
    exact ⟨before n.path ++ (n.left.toList ++ [n.entry]), by simp⟩
  have hbehind : Ordered ((n.rest .right).map Node.entry) := by
    rw [hrest]
    exact hord.sublist (hsuffix.sublist.map _)
  have hright : Ordered n.right.toList := by
    rw [hrest, Ordered, List.map_append, List.pairwise_append] at hbehind
    exact hbehind.1
  exact search_or hsub.2.2 hbehind (searchFrom_eq hsub.2.2 hright) (iterUp_eq hmax hord)

/-- **The iteration** comes to every node that intersects the range, once and in order, and
ends. -/
theorem follow_iterNext (start last : UInt64) {root : IntervalTree} (hmax : MaxExact root)
    (hord : Ordered root.toList) {turns : ℕ} (hturns : root.toList.length ≤ turns) :
    follow (iterNext start last) turns (iterFirstNode start last root) =
      (root.nodes []).filter (hit start last) := by
  rw [iterFirstNode_eq hmax hord]
  refine follow_eq (leads_filter (rests_nodesToward .right [] root) fun n hn _ => ?_) ?_
  · have hroot : n.root = root := root_of_mem_nodes hn
    exact iterNext_eq (hroot.symm ▸ hmax) (hroot.symm ▸ hord)
  · rw [← entry_nodes [], List.length_map] at hturns
    exact (List.length_filter_le _ _).trans hturns

end Tools
end Sword
