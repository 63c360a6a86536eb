import Sword.Tools.Augmented
import Sword.Tools.SearchOrder

/-!
# The augmented maximum: `__subtree_last`

A query skips the subtrees whose `__subtree_last` is below the addresses sought.  That loses
nothing where the value is the maximum of `last` over the subtree.  Three mechanisms
write it: every operation raises it on the way down, rotations compute it anew, and a
node that is rewritten where it stands keeps it.

* `iterFirst` — `interval_tree_iter_first`.
* `MaxLast`, `MaxExact` — the maximum, and that every node has it.
* `iterFirst_isSome_iff` — what a query finds then.
* `InsertCovers`, `MergeCovers`, `OverlapCovers` — when the calls keep the maxima.
* `maxExact_reached` — they are exact in every state reached by such calls;
  `twoWrites_not_exact` shows two writes after which they are not.
-/

namespace Sword
namespace Tools

open Run

/-! ## Queries -/

/-- `_subtree_search`: the loop enters the left child, ends at the node, or enters the right
child. -/
def subtreeSearch (start last : UInt64) : IntervalTree → Option IntervalTreeNode
  | .nil => none
  | .node _ l e _ r =>
    if l.augmented?.any (start ≤ ·) then subtreeSearch start last l
    else if e.start ≤ last then
      if start ≤ e.last then some e
      else if r.augmented?.any (start ≤ ·) then subtreeSearch start last r
      else none
    else none

/-- `interval_tree_iter_first`. -/
def iterFirst (root : IntervalTree) (start last : UInt64) : Option IntervalTreeNode :=
  match root with
  | .nil => none
  | .node _ _ _ b _ => if b < start then none else subtreeSearch start last root

/-! ## The maximum -/

/-- The maximum of `last` over some nodes. -/
def MaxLast (es : List IntervalTreeNode) (b : UInt64) : Prop :=
  (∃ n ∈ es, n.last = b) ∧ ∀ n ∈ es, n.last ≤ b

/-- Every `__subtree_last` is the maximum of `last` over the nodes of its subtree. -/
def MaxExact (root : IntervalTree) : Prop := root.Annotated MaxLast

variable {es fs : List IntervalTreeNode} {n parent e : IntervalTreeNode} {b : UInt64}

theorem maxLast_singleton (n : IntervalTreeNode) : MaxLast [n] n.last := by
  refine ⟨⟨n, List.mem_singleton_self n, rfl⟩, fun m hm => ?_⟩
  rw [List.mem_singleton.1 hm]
  exact UInt64.le_refl _

theorem le_raise_left (a b : UInt64) : a ≤ raise a b := by
  rw [raise]
  split
  · exact UInt64.le_refl a
  · rename_i hlt
    exact UInt64.not_lt.1 hlt

theorem le_raise_right (a b : UInt64) : b ≤ raise a b := by
  rw [raise]
  split
  · rename_i hlt
    exact UInt64.le_of_lt hlt
  · exact UInt64.le_refl b

theorem raise_eq (a b : UInt64) : raise a b = a ∨ raise a b = b := by
  rw [raise]
  split
  · exact Or.inl rfl
  · exact Or.inr rfl

/-- A value that is at most the stored one does not raise it. -/
theorem raise_eq_right {a : UInt64} (h : a ≤ b) : raise a b = b := if_neg (UInt64.not_lt.2 h)

/-- The maximum of both. -/
theorem maxLast_raise {a : UInt64} (ha : ∃ n ∈ es, n.last = a) (hb : ∃ n ∈ es, n.last = b)
    (h : ∀ n ∈ es, n.last ≤ a ∨ n.last ≤ b) : MaxLast es (raise a b) := by
  constructor
  · rcases raise_eq a b with heq | heq <;> rw [heq] <;> assumption
  · intro n hn
    rcases h n hn with hle | hle
    · exact UInt64.le_trans hle (le_raise_left a b)
    · exact UInt64.le_trans hle (le_raise_right a b)

theorem maxLast_append {a : UInt64} (ha : MaxLast es a) (hb : MaxLast fs b) :
    MaxLast (es ++ fs) (raise a b) ∧ MaxLast (es ++ fs) (raise b a) := by
  obtain ⟨⟨n, hn, hna⟩, hea⟩ := ha
  obtain ⟨⟨m, hm, hmb⟩, hfb⟩ := hb
  have hna : ∃ n ∈ es ++ fs, n.last = a := ⟨n, List.mem_append_left _ hn, hna⟩
  have hmb : ∃ n ∈ es ++ fs, n.last = b := ⟨m, List.mem_append_right _ hm, hmb⟩
  have hle : ∀ k ∈ es ++ fs, k.last ≤ a ∨ k.last ≤ b := fun k hk =>
    (List.mem_append.1 hk).imp (hea k) (hfb k)
  exact ⟨maxLast_raise hna hmb hle, maxLast_raise hmb hna fun k hk => (hle k hk).symm⟩

/-- `_compute_subtree_last` raises the `last` of the node by the values of its children. -/
theorem computeSubtreeLast_eq (n : IntervalTreeNode) (left right : Option UInt64) :
    computeSubtreeLast n left right =
      right.elim (left.elim n.last (raise · n.last))
        (raise · (left.elim n.last (raise · n.last))) := by
  cases left <;> cases right <;> rfl

theorem summary_maxLast : Summary MaxLast computeSubtreeLast where
  compute_spec := by
    intro es fs e a b ha hb
    have hfront : MaxLast (es ++ [e]) (a.elim e.last (raise · e.last)) := by
      cases a with
      | none =>
        obtain rfl : es = [] := ha
        exact maxLast_singleton e
      | some a => exact (maxLast_append ha (maxLast_singleton e)).1
    rw [computeSubtreeLast_eq, List.append_cons]
    cases b with
    | none =>
      obtain rfl : fs = [] := hb
      rw [List.append_nil]
      exact hfront
    | some b => exact (maxLast_append hfront hb).2
  congr := by
    rintro es es' b ⟨⟨n, hn, hnb⟩, hle⟩ ⟨⟨n', hn', hnb'⟩, hle'⟩ front behind c ⟨⟨m, hm, hmc⟩, hc⟩
    simp only [List.mem_append] at hm hc
    have hbc : b ≤ c := hnb ▸ hc n (Or.inr (Or.inl hn))
    refine ⟨?_, fun k hk => ?_⟩
    · rcases hm with hm | hm | hm
      · exact ⟨m, by simp [hm], hmc⟩
      · have hcb : c ≤ b := hmc ▸ hle m hm
        exact ⟨n', by simp [hn'], hnb'.trans (UInt64.le_antisymm hbc hcb)⟩
      · exact ⟨m, by simp [hm], hmc⟩
    · simp only [List.mem_append] at hk
      rcases hk with hk | hk | hk
      · exact hc k (Or.inl hk)
      · exact UInt64.le_trans (hle' k hk) hbc
      · exact hc k (Or.inr (Or.inr hk))

/-- A node added raises the maximum by its `last`. -/
theorem maxLast_added (h : MaxLast (es ++ fs) b) : MaxLast (es ++ n :: fs) (raise n.last b) := by
  have hmem : ∀ {m}, m ∈ es ++ n :: fs ↔ m ∈ [n] ++ (es ++ fs) := by
    intro m
    simp [or_left_comm]
  obtain ⟨hex, hle⟩ := (maxLast_append (maxLast_singleton n) h).1
  exact ⟨hex.imp fun m hm => ⟨hmem.2 hm.1, hm.2⟩, fun m hm => hle m (hmem.1 hm)⟩

/-! ## What a query finds -/

section Query

variable {root : IntervalTree} {start last : UInt64}

/-- The range of the node intersects the one sought. -/
def Intersects (start last : UInt64) (n : IntervalTreeNode) : Prop :=
  n.start ≤ last ∧ start ≤ n.last

/-- A subtree with exact maxima has a node that ends at `start` or later exactly if its
`__subtree_last` says so. -/
theorem any_augmented?_iff (h : MaxExact root) :
    root.augmented?.any (start ≤ ·) = true ↔ ∃ n ∈ root.toList, start ≤ n.last := by
  cases root with
  | nil => simp [Rbtree.augmented?, Rbtree.toList]
  | node c l e b r =>
    obtain ⟨⟨n, hn, hnb⟩, hle⟩ := h.2.1
    simp only [Rbtree.augmented?, Option.any_some, decide_eq_true_iff]
    constructor
    · exact fun hb => ⟨n, hn, hnb ▸ hb⟩
    · rintro ⟨m, hm, hstart⟩
      exact UInt64.le_trans hstart (hle m hm)

theorem mem_of_subtreeSearch (h : subtreeSearch start last root = some n) :
    n ∈ root.toList ∧ Intersects start last n := by
  induction root with
  | nil => cases h
  | node c l e b r ihl ihr =>
    rw [subtreeSearch] at h
    rw [Rbtree.toList, List.mem_append, List.mem_cons]
    split at h
    · exact ⟨Or.inl (ihl h).1, (ihl h).2⟩
    · split at h
      · rename_i hlast
        split at h
        · rename_i hstart
          cases h
          exact ⟨Or.inr (Or.inl rfl), hlast, hstart⟩
        · split at h
          · exact ⟨Or.inr (Or.inr (ihr h).1), (ihr h).2⟩
          · cases h
      · cases h

theorem subtreeSearch_isSome (hmax : MaxExact root) (hord : Ordered root.toList)
    (h : ∃ n ∈ root.toList, Intersects start last n) :
    (subtreeSearch start last root).isSome := by
  induction root with
  | nil =>
    obtain ⟨n, hn, -⟩ := h
    exact (List.not_mem_nil hn).elim
  | node c l e b r ihl ihr =>
    obtain ⟨n, hn, hnlast, hnstart⟩ := h
    obtain ⟨hrest, hfront, hbehind⟩ := ordered_place.1 hord
    have hsub := hrest
    rw [Ordered, List.map_append, List.pairwise_append] at hsub
    rw [Rbtree.toList, List.mem_append, List.mem_cons] at hn
    -- a node that is not on the left starts behind the root
    have hstart : n ∉ l.toList → e.start ≤ n.start := by
      intro hnl
      rcases hn with hn | rfl | hn
      · exact absurd hn hnl
      · exact UInt64.le_refl _
      · exact hbehind n hn
    rw [subtreeSearch]
    split
    · rename_i hany
      by_cases hnl : n ∈ l.toList
      · exact ihl hmax.1 hsub.1 ⟨n, hnl, hnlast, hnstart⟩
      · -- some node on the left ends late enough, and starts in front of the match
        obtain ⟨m, hm, hmstart⟩ := (any_augmented?_iff hmax.1).1 hany
        have hmn := UInt64.le_trans (hfront m hm) (hstart hnl)
        exact ihl hmax.1 hsub.1 ⟨m, hm, UInt64.le_trans hmn hnlast, hmstart⟩
    · rename_i hany
      have hnl : n ∉ l.toList := fun hnl => hany ((any_augmented?_iff hmax.1).2 ⟨n, hnl, hnstart⟩)
      rw [if_pos (UInt64.le_trans (hstart hnl) hnlast)]
      split
      · rfl
      · rename_i hne
        have hnr : n ∈ r.toList := by
          rcases hn with hn | rfl | hn
          · exact absurd hn hnl
          · exact absurd hnstart hne
          · exact hn
        rw [if_pos ((any_augmented?_iff hmax.2.2).2 ⟨n, hnr, hnstart⟩)]
        exact ihr hmax.2.2 hsub.2.1 ⟨n, hnr, hnlast, hnstart⟩

/-- **What a query finds**: in a tree with exact maxima whose nodes are in order, a node exactly
if some node intersects the range. -/
theorem iterFirst_isSome_iff (hmax : MaxExact root) (hord : Ordered root.toList) :
    (iterFirst root start last).isSome ↔ ∃ n ∈ root.toList, Intersects start last n := by
  cases root with
  | nil => simp [iterFirst, Rbtree.toList]
  | node c l e b r =>
    rw [iterFirst]
    constructor
    · intro h
      split at h
      · cases h
      · obtain ⟨n, hn⟩ := Option.isSome_iff_exists.1 h
        exact ⟨n, mem_of_subtreeSearch hn⟩
    · rintro ⟨n, hn, hint⟩
      have hb : ¬ b < start := UInt64.not_lt.2 (UInt64.le_trans hint.2 (hmax.2.1.2 n hn))
      rw [if_neg hb]
      exact subtreeSearch_isSome hmax hord ⟨n, hn, hint⟩

end Query

/-! ## When a descent keeps the maxima -/

section Descent

variable {visit : IntervalTreeNode → Visit IntervalTreeNode}
  {rewritten : IntervalTreeNode → UInt64} {root : IntervalTree}

/-- A search for addresses up to `last` passes only nodes with a `__subtree_last` as high; and
the `last` written to the node where it ends, `rewritten`, is not above that node's
`__subtree_last`, which a child has, if it is below. -/
def LastCovered (visit : IntervalTreeNode → Visit IntervalTreeNode)
    (left : IntervalTreeNode → Bool) (last : UInt64) (rewritten : IntervalTreeNode → UInt64) :
    IntervalTree → Prop
  | .nil => True
  | .node _ l e b r =>
    match visit e with
    | .stop _ => rewritten e ≤ b ∧
        (rewritten e = b ∨ l.augmented? = some b ∨ r.augmented? = some b)
    | .descend _ => last ≤ b ∧
        if left e then LastCovered visit left last rewritten l
        else LastCovered visit left last rewritten r

instance decidableLastCovered (left : IntervalTreeNode → Bool) (last : UInt64)
    (rewritten : IntervalTreeNode → UInt64) :
    (root : IntervalTree) → Decidable (LastCovered visit left last rewritten root)
  | .nil => isTrue trivial
  | .node _ l e b r =>
    have := decidableLastCovered left last rewritten l
    have := decidableLastCovered left last rewritten r
    match hv : visit e with
    | .stop _ => decidable_of_iff (rewritten e ≤ b ∧
        (rewritten e = b ∨ l.augmented? = some b ∨ r.augmented? = some b)) (by
          rw [LastCovered, hv])
    | .descend _ => decidable_of_iff (last ≤ b ∧
        if left e then LastCovered visit left last rewritten l
        else LastCovered visit left last rewritten r) (by rw [LastCovered, hv])

theorem covered_of_lastCovered {left : IntervalTreeNode → Bool} {last : UInt64}
    (hpass : ∀ e e', visit e = .descend e' → e' = e)
    (hstop : ∀ e e', visit e = .stop e' → e'.last = rewritten e) (hmax : MaxExact root)
    (h : LastCovered visit left last rewritten root) :
    root.Covered MaxLast visit left (raise last) := by
  induction root with
  | nil => trivial
  | node c l e b r ihl ihr =>
    rw [LastCovered] at h
    rw [Rbtree.Covered]
    cases hv : visit e with
    | stop e' =>
      rw [hv] at h
      obtain ⟨hle, hhas⟩ := h
      rw [← hstop e e' hv] at hle hhas
      refine ⟨?_, fun n hn => ?_⟩
      · rcases hhas with heq | hl | hr
        · exact ⟨e', by simp, heq⟩
        · have hsum := summed_augmented? hmax.1
          rw [hl] at hsum
          obtain ⟨n, hn, hnb⟩ := hsum.1
          exact ⟨n, List.mem_append_left _ hn, hnb⟩
        · have hsum := summed_augmented? hmax.2.2
          rw [hr] at hsum
          obtain ⟨n, hn, hnb⟩ := hsum.1
          exact ⟨n, List.mem_append_right _ (List.mem_cons_of_mem _ hn), hnb⟩
      · have hold := hmax.2.1.2
        rcases List.mem_append.1 hn with hn | hn
        · exact hold n (List.mem_append_left _ hn)
        · rcases List.mem_cons.1 hn with rfl | hn
          · exact hle
          · exact hold n (List.mem_append_right _ (List.mem_cons_of_mem _ hn))
    | descend e' =>
      rw [hv] at h
      obtain rfl := hpass e e' hv
      refine ⟨raise_eq_right h.1, ?_⟩
      have hrest := h.2
      split
      · rename_i hgo
        rw [if_pos hgo] at hrest
        exact ihl hmax.1 hrest
      · rename_i hgo
        rw [if_neg hgo] at hrest
        exact ihr hmax.2.2 hrest

/-- **A descent** keeps the maxima exact, if it adds a node, or is covered. -/
theorem maxExact_descend (entry : IntervalTreeNode)
    (hpass : ∀ e e', visit e = .descend e' → e' = e)
    (hstop : ∀ e e', visit e = .stop e' → e'.last = rewritten e) (hmax : MaxExact root)
    (h : (root.place visit (goLeft n)).stop ≠ none →
      LastCovered visit (goLeft n) entry.last rewritten root) :
    MaxExact (descend computeSubtreeLast visit (goLeft n) (raise entry.last) entry entry.last []
      root) := by
  by_cases hnone : (root.place visit (goLeft n)).stop = none
  · exact annotated_descend_added summary_maxLast (maxLast_singleton entry) maxLast_added
      (fun e _ e' hv => hpass e e' hv) hnone hmax fun t' ht' _ _ _ _ => ht'
  · exact annotated_descend_stopped summary_maxLast (fun e _ e' hv => hpass e e' hv) hnone
      (covered_of_lastCovered hpass hstop hmax (h hnone)) hmax fun t' ht' _ => ht'

end Descent

/-! ## The conditions on calls -/

/-- The `last` of the node where an insertion ends: one that grows at its end gets the
end of the longer progression. -/
def insertLast (n parent : IntervalTreeNode) : UInt64 :=
  let d := if parent.diff = 0 then (n.start - parent.start).toUInt32 else parent.diff
  if parent.diff = 0 ∧ n.start - parent.start ≠ 0 ∧ n.start - parent.start < 64 ∨
      parent.diff ≠ 0 ∧ n.start = parent.END + parent.diff.toUInt64 then
    parent.start + (d * parent.count).toUInt64
  else parent.last

theorem last_coalesce {p : IntervalTreeNode} (h : coalesce n parent = .stop p) :
    p.last = insertLast n parent := by
  have hgrow : ∀ q : IntervalTreeNode, q.grow.last = q.start + (q.diff * q.count).toUInt64 := by
    intro q
    have hsub : q.count + 1 - 1 = q.count := by simp
    show q.start + (q.diff * (q.count + 1 - 1)).toUInt64 = _
    rw [hsub]
  rw [insertLast]
  cases coalesced_stop h with
  | second hkey hd hne hlt =>
    rw [if_pos (Or.inl ⟨hd, hne, hlt⟩), if_pos hd, hgrow]
  | far hkey hd hfar =>
    rw [if_neg]
    rintro (⟨-, hne, hlt⟩ | ⟨hne, -⟩)
    · rcases hfar with heq | hfar
      · exact hne (by rw [heq]; simp)
      · exact absurd hlt (UInt64.not_lt.2 hfar)
    · exact hne hd
  | append hkey hd happend => rw [if_pos (Or.inr ⟨hd, happend⟩), if_neg hd, hgrow]
  | inRange hkey hd happend hrange =>
    rw [if_neg]
    rintro (⟨hd', -⟩ | ⟨-, happend'⟩)
    · exact hd hd'
    · exact happend happend'
  | prepend hkey hd happend hrange hprepend =>
    rw [if_neg]
    rintro (⟨hd', -⟩ | ⟨-, happend'⟩)
    · exact hd hd'
    · exact happend happend'

/-- The `last` of the node where merging ends. -/
def mergeLast (n parent : IntervalTreeNode) : UInt64 :=
  if n.count = parent.count ∧ parent.count = 1 ∨
      parent.start - n.last = parent.diff.toUInt64 then parent.last
  else if n.start - parent.last = parent.diff.toUInt64 then n.last
  else if parent.last < n.last then n.last else parent.last

theorem last_foldNode {p : IntervalTreeNode} (h : foldNode n parent = .stop p) :
    p.last = mergeLast n parent := by
  rw [mergeLast]
  cases folded_stop h with
  | below _ _ _ hbelow => rw [if_pos (Or.inr hbelow)]; rfl
  | above _ _ hcounts hbelow habove => rw [if_neg (not_or.2 ⟨hcounts, hbelow⟩), if_pos habove]; rfl
  | overlap _ _ hcounts hbelow habove hrange =>
    rw [if_neg (not_or.2 ⟨hcounts, hbelow⟩), if_neg habove]
    rfl
  | same _ _ hcounts _ => rw [if_pos (Or.inl hcounts)]

/-- An insertion that adds no node is covered. -/
def InsertCovers (root : IntervalTree) (c : InsertCall) : Prop :=
  (c.place root).stop ≠ none →
    LastCovered (coalesce c.node) (goLeft c.node) c.address (insertLast c.node) root

/-- There is a tree to merge the node into, and merging that adds no node is covered. -/
def MergeCovers (tree1 : IntervalTree) (n : IntervalTreeNode) : Prop :=
  tree1 ≠ .nil ∧ ((tree1.place (foldNode n) (goLeft n)).stop ≠ none →
    LastCovered (foldNode n) (goLeft n) n.last (mergeLast n) tree1)

/-- No node looked up ends behind the `__subtree_last` of a node on its path. -/
def OverlapCovers (tree1 tree2 : IntervalTree) : Prop :=
  ∀ n ∈ tree2.toList, ∀ b ∈ tree1.values (goLeft n), n.last ≤ b

instance (root : IntervalTree) (c : InsertCall) : Decidable (InsertCovers root c) :=
  inferInstanceAs (Decidable (_ → _))

instance (tree1 : IntervalTree) : Decidable (MergeCovers tree1 n) :=
  inferInstanceAs (Decidable (_ ∧ (_ → _)))

-- over the values on the path, not over all of `UInt64`
instance (tree1 tree2 : IntervalTree) : Decidable (OverlapCovers tree1 tree2) :=
  have (n : IntervalTreeNode) : Decidable (∀ b ∈ tree1.values (goLeft n), n.last ≤ b) :=
    List.decidableBAll _ _
  List.decidableBAll _ _

theorem maxExact_insertStep {root : IntervalTree} {c : InsertCall} (hmax : MaxExact root)
    (h : InsertCovers root c) : MaxExact (insertStep root c) :=
  maxExact_descend c.node (fun _ _ hv => coalesce_descend hv)
    (fun _ _ hv => last_coalesce hv) hmax h

theorem maxExact_mergeNode {tree1 : IntervalTree} (hmax : MaxExact tree1)
    (h : MergeCovers tree1 n) : ∃ tree, mergeNode tree1 n = some tree ∧ MaxExact tree :=
  ⟨_, mergeNode_eq n h.1, maxExact_descend (.make n.start n.last n.sizeType n.pc n.mutex)
    (fun _ _ hv => foldNode_descend hv) (fun _ _ hv => last_foldNode hv) hmax h.2⟩

/-- A covered search changes nothing. -/
theorem overlap_eq_self {glpk : Glpk} {tree1 tree2 : IntervalTree} (h : OverlapCovers tree1 tree2) :
    (overlap glpk tree1 tree2).1 = tree1 := by
  rw [overlap]
  generalize hraces : ([] : List (IntervalTreeNode × IntervalTreeNode)) = races
  clear hraces
  rw [OverlapCovers] at h
  generalize tree2.toList = nodes at h
  induction nodes generalizing races with
  | nil => rfl
  | cons n nodes ih =>
    have hwalk := walk_eq_self fun b hb =>
      show raise n.last b = b from raise_eq_right (h n List.mem_cons_self b hb)
    rw [List.foldl_cons, overlapNode, hwalk]
    exact ih _ fun m hm => h m (List.mem_cons_of_mem _ hm)

/-! ## Every state reached -/

/-- The condition on a call. -/
def CallCovers (s : ℕ → IntervalTree) : Call → Prop
  | .insert i c => InsertCovers (s i) c
  | .overlap i j => OverlapCovers (s i) (s j)
  | .merge i j => i ≠ j ∧ GuardedM mergeNode MergeCovers (s i) (s j).toList.reverse

instance (s : ℕ → IntervalTree) : (call : Call) → Decidable (CallCovers s call)
  | .insert i c => inferInstanceAs (Decidable (InsertCovers (s i) c))
  | .overlap i j => inferInstanceAs (Decidable (OverlapCovers (s i) (s j)))
  | .merge _ _ => inferInstanceAs (Decidable (_ ∧ _))

theorem maxExact_step {glpk : Glpk} {s : ℕ → IntervalTree}
    (hs : ∀ i, MaxExact (s i) ∧ (s i).IsRedBlack) {call : Call} (hok : CallCovers s call) :
    ∃ s', step glpk s call = some s' ∧ ∀ i, MaxExact (s' i) ∧ (s' i).IsRedBlack := by
  refine step_keeps trivial hs ?_
  cases call with
  | insert i c => exact maxExact_insertStep (hs i).1 hok
  | overlap i j =>
    rw [Keeps, overlap_eq_self hok]
    exact (hs i).1
  | merge i j =>
    exact merge_induction (Q := fun _ => True) (fun _ _ ht _ hc => maxExact_mergeNode ht hc)
      (hs i).1 (fun _ _ => trivial) (hs i).2 hok.2

/-- A run whose calls are covered goes through. -/
theorem maxExact_run {glpk : Glpk} {calls : List Call}
    (hg : GuardedM (step glpk) CallCovers (fun _ => .nil) calls) :
    ∃ s, calls.foldlM (step glpk) (fun _ => .nil) = some s ∧
      ∀ i, MaxExact (s i) ∧ (s i).IsRedBlack :=
  @invariant_guardedM (ℕ → IntervalTree) Call _ _
    (fun _ s => ∀ i, MaxExact (s i) ∧ (s i).IsRedBlack) (fun _ _ _ hs hok => maxExact_step hs hok)
    [] (fun _ => Rbtree.nil) (fun _ => ⟨trivial, isRedBlack_nil⟩) _ hg

/-- **The maxima stay exact** in every run whose calls are covered, whatever their order; and
a query of a tree whose nodes are in order then finds a node exactly if some node
intersects its range. -/
theorem maxExact_reached (glpk : Glpk) (calls : List Call) (s : ℕ → IntervalTree)
    (hg : GuardedM (step glpk) CallCovers (fun _ => .nil) calls)
    (hrun : calls.foldlM (step glpk) (fun _ => .nil) = some s) (i : ℕ) :
    MaxExact (s i) ∧ (Ordered (s i).toList → ∀ start last,
      (iterFirst (s i) start last).isSome ↔ ∃ n ∈ (s i).toList, Intersects start last n) := by
  obtain ⟨s', hrun', hs'⟩ := maxExact_run hg
  rw [hrun] at hrun'
  obtain rfl := Option.some.inj hrun'
  exact ⟨(hs' i).1, fun hord _ _ => iterFirst_isSome_iff (hs' i).1 hord⟩

/-- In each of two trees writes by one instruction, 8 bytes apart, with a write to 300 by another
instruction between them; and a search for the nodes of the second tree in the first. -/
def growingCalls : List Call :=
  [.insert 0 ⟨0, 0x31, 64, ∅⟩, .insert 0 ⟨300, 0x31, 65, ∅⟩, .insert 0 ⟨8, 0x31, 64, ∅⟩,
    .insert 1 ⟨16, 0x31, 64, ∅⟩, .insert 1 ⟨300, 0x31, 65, ∅⟩, .insert 1 ⟨24, 0x31, 64, ∅⟩,
    .overlap 0 1]

/-- Both roots are extended in place above a child that reaches further, and the second is then
folded into the first. -/
theorem maxExact_reached_growingCalls : ∃ s,
    (growingCalls ++ [Call.merge 0 1]).foldlM (step Glpk.exhaustive) (fun _ => .nil) = some s ∧
      (s 0).toList = [⟨0, 24, 4, 0x31, 8, 64, ∅⟩, ⟨300, 300, 1, 0x31, 0, 65, ∅⟩] ∧
      MaxExact (s 0) ∧ ∀ start last,
        (iterFirst (s 0) start last).isSome ↔ ∃ n ∈ (s 0).toList, Intersects start last n := by
  have hg : GuardedM (step Glpk.exhaustive) CallCovers (fun _ => .nil) growingCalls := by
    decide +kernel
  have hmerges : ∀ s ∈ growingCalls.foldlM (step Glpk.exhaustive) fun _ => .nil,
      CallCovers s (.merge 0 1) ∧ (merge (s 0) (s 1)).map Rbtree.toList =
        some [⟨0, 24, 4, 0x31, 8, 64, ∅⟩, ⟨300, 300, 1, 0x31, 0, 65, ∅⟩] := by
    intro s hs
    cases hs
    decide +kernel
  obtain ⟨s, hrun, hs⟩ := maxExact_run hg
  obtain ⟨hok, hlist⟩ := hmerges s hrun
  obtain ⟨tree, hmerge, hlist⟩ := Option.map_eq_some_iff.1 hlist
  have hrun' : (growingCalls ++ [Call.merge 0 1]).foldlM (step Glpk.exhaustive) (fun _ => .nil) =
      some (Function.update (Function.update s 0 tree) 1 .nil) := by
    rw [List.foldlM_append, hrun]
    simp [step_merge (hs 1).2 hmerge]
  have hg' : GuardedM (step Glpk.exhaustive) CallCovers (fun _ => .nil)
      (growingCalls ++ [Call.merge 0 1]) :=
    (guardedM_append hrun).2 ⟨hg, hok, fun _ _ => trivial⟩
  have hord : Ordered tree.toList := by
    rw [hlist]
    decide
  obtain ⟨hmax, hquery⟩ := maxExact_reached Glpk.exhaustive _ _ hg' hrun' 0
  exact ⟨_, hrun', hlist, hmax, hquery hord⟩

/-- Two writes of one instruction, 8 bytes apart. -/
def twoWrites : List Call := [.insert 0 ⟨0, 0x31, 64, ∅⟩, .insert 0 ⟨8, 0x31, 64, ∅⟩]

/-- The second extends the node of the first in place, which then ends at 8 with a
`__subtree_last` of 0. -/
theorem twoWrites_not_exact :
    ¬ ∀ s, Reached (fun _ _ => True) (fun _ _ => True) Glpk.exhaustive s →
      ∀ i, MaxExact (s i) := by
  intro hall
  obtain ⟨s, hs⟩ : ∃ s, twoWrites.foldlM (step Glpk.exhaustive) (fun _ => .nil) = some s :=
    ⟨_, rfl⟩
  have hreached : Reached (fun _ _ => True) (fun _ _ => True) Glpk.exhaustive s :=
    ⟨twoWrites, ⟨trivial, fun _ _ => ⟨trivial, fun _ _ => trivial⟩⟩, hs⟩
  cases hs
  have hmax := (hall _ hreached 0).2.1.2 ⟨0, 8, 2, 0x31, 8, 64, ∅⟩ (by decide)
  exact absurd hmax (by decide)

end Tools
end Sword
