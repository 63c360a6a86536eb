import Sword.Tools.Represents
import Sword.Tools.Calls

/-!
# Search-tree order

Every descent turns left at the nodes that start behind the address sought.  That is the
right way as long as an in-order walk visits the nodes by their start; but insertion and
merging lower the start of a node where it stands, whatever is in front of it.

* `Ordered` — the order of the walk.
* `LowersStart`, `FoldsStart` — when a node's start is rewritten.
* `InsertOrdered`, `MergeOrdered` — the nodes around it allow the new start.
* `ordered_reached` — the order holds in every state reached by such calls;
  `ordered_load_iff` — and for insertions alone, by no others.
-/

namespace Sword
namespace Tools

open Run

/-- The nodes are visited in the order of their start. -/
def Ordered (es : List IntervalTreeNode) : Prop := (es.map IntervalTreeNode.start).Pairwise (· ≤ ·)

instance (es : List IntervalTreeNode) : Decidable (Ordered es) :=
  inferInstanceAs (Decidable (List.Pairwise _ _))

variable {n parent : IntervalTreeNode} {visit : IntervalTreeNode → Visit IntervalTreeNode}

/-! ## The start a visit leaves -/

/-- `interval_tree_insert_data` makes the address the start of the parent. -/
def LowersStart (n parent : IntervalTreeNode) : Prop :=
  SameKey n parent ∧ parent.diff ≠ 0 ∧ n.start ≠ parent.END + parent.diff.toUInt64 ∧
    ¬ (parent.start ≤ n.start ∧ n.start ≤ parent.END) ∧
      n.start = parent.start - parent.diff.toUInt64

/-- `interval_tree_merge` makes the start of the node that of the parent. -/
def FoldsStart (n parent : IntervalTreeNode) : Prop :=
  SameKey n parent ∧ n.diff = parent.diff ∧ ¬ (n.count = parent.count ∧ parent.count = 1) ∧
    (parent.start - n.last = parent.diff.toUInt64 ∨
      n.start - parent.last ≠ parent.diff.toUInt64 ∧
        (n.start ≤ parent.last ∧ parent.start ≤ n.last) ∧ n.start < parent.start)

instance : Decidable (LowersStart n parent) := inferInstanceAs (Decidable (_ ∧ _ ∧ _ ∧ _ ∧ _))

instance : Decidable (FoldsStart n parent) := inferInstanceAs (Decidable (_ ∧ _ ∧ _ ∧ (_ ∨ _)))

/-- A visit for the node leaves the start of the parent, or makes it that of the node. -/
def Restarts (n : IntervalTreeNode) (rewrites : IntervalTreeNode → Prop)
    (visit : IntervalTreeNode → Visit IntervalTreeNode) : Prop :=
  ∀ parent, (rewrites parent ∧ (visit parent).entry.start = n.start) ∨
    (visit parent).entry.start = parent.start

theorem restarts_coalesce (n : IntervalTreeNode) : Restarts n (LowersStart n) (coalesce n) := by
  intro parent
  have hc := coalesced n parent
  generalize coalesce n parent = visit at hc ⊢
  cases hc with
  | prepend hkey hd happend hrange hprepend =>
    exact Or.inl ⟨⟨hkey, hd, happend, hrange, hprepend⟩, rfl⟩
  | otherKey _ => exact Or.inr rfl
  | second _ _ _ _ => exact Or.inr rfl
  | far _ _ _ => exact Or.inr rfl
  | append _ _ _ => exact Or.inr rfl
  | inRange _ _ _ _ => exact Or.inr rfl
  | pass _ _ _ _ _ => exact Or.inr rfl

theorem restarts_foldNode (n : IntervalTreeNode) : Restarts n (FoldsStart n) (foldNode n) := by
  intro parent
  have hf := folded n parent
  generalize foldNode n parent = visit at hf ⊢
  cases hf with
  | below hkey hdiff hcounts hbelow =>
    exact Or.inl ⟨⟨hkey, hdiff, hcounts, Or.inl hbelow⟩, rfl⟩
  | overlap hkey hdiff hcounts _ habove hrange =>
    by_cases hlt : parent.start < n.start
    · exact Or.inr (if_pos hlt)
    · by_cases heq : n.start = parent.start
      · exact Or.inr ((if_neg hlt).trans heq)
      · have hlow : n.start < parent.start := UInt64.lt_of_le_of_ne (UInt64.not_lt.1 hlt) heq
        exact Or.inl ⟨⟨hkey, hdiff, hcounts, Or.inr ⟨habove, hrange, hlow⟩⟩, if_neg hlt⟩
  | otherKey _ => exact Or.inr rfl
  | above _ _ _ _ _ => exact Or.inr rfl
  | apart _ _ _ _ _ _ => exact Or.inr rfl
  | same _ _ _ _ => exact Or.inr rfl
  | other _ _ _ _ => exact Or.inr rfl

/-! ## The order after a descent -/

/-- Where a descent for the node rewrites the start of the node it ends at, no node in
front of that one starts behind the new start, and none behind it in front. -/
def PlaceOrdered (n : IntervalTreeNode) (rewrites : IntervalTreeNode → Prop)
    (p : Place IntervalTreeNode) : Prop :=
  ∀ parent, p.stop = some parent → rewrites parent →
    (∀ e ∈ p.front, e.start ≤ n.start) ∧ ∀ e ∈ p.behind, n.start ≤ e.start

instance {rewrites : IntervalTreeNode → Prop} [DecidablePred rewrites]
    (p : Place IntervalTreeNode) : Decidable (PlaceOrdered n rewrites p) :=
  match hs : p.stop with
  | none => isTrue (by simp [PlaceOrdered, hs])
  | some parent => decidable_of_iff (rewrites parent →
      (∀ e ∈ p.front, e.start ≤ n.start) ∧ ∀ e ∈ p.behind, n.start ≤ e.start) (by
        simp [PlaceOrdered, hs])

theorem ordered_place {front behind : List IntervalTreeNode} {e : IntervalTreeNode} :
    Ordered (front ++ e :: behind) ↔ Ordered (front ++ behind) ∧
      (∀ d ∈ front, d.start ≤ e.start) ∧ ∀ d ∈ behind, e.start ≤ d.start := by
  simp only [Ordered, List.map_append, List.map_cons, List.pairwise_append, List.pairwise_cons,
    List.mem_cons, List.mem_map, forall_exists_index, and_imp, forall_apply_eq_imp_iff₂,
    forall_eq_or_imp]
  constructor
  · rintro ⟨hf, ⟨he, hb⟩, hfb⟩
    exact ⟨⟨hf, hb, fun a ha => (hfb a ha).2⟩, fun d hd => (hfb d hd).1, he⟩
  · rintro ⟨⟨hf, hb, hfb⟩, hfe, he⟩
    exact ⟨hf, ⟨he, hb⟩, fun a ha => ⟨hfe a ha, hfb a ha⟩⟩

/-- A node added where the search ends is in its place. -/
theorem ordered_added {t : IntervalTree} {entry : IntervalTreeNode}
    (hstart : entry.start = n.start)
    (hpass : ∀ e ∈ t.visited visit (goLeft n), ∀ e', visit e = .descend e' → e' = e)
    (h : Ordered t.toList) (hs : (t.place visit (goLeft n)).stop = none) :
    Ordered ((t.place visit (goLeft n)).front ++ entry :: (t.place visit (goLeft n)).behind) := by
  have hlist := toList_eq_place visit (goLeft n) t
  rw [hs] at hlist
  have hsorted : t.toList.Pairwise fun d e => d.start.toNat ≤ e.start.toNat := by
    rw [Ordered, List.pairwise_map] at h
    exact h
  have hgo : ∀ e, goLeft n e = decide (n.start.toNat < e.start.toNat) := fun _ => rfl
  obtain ⟨hfront, hbehind⟩ := place_bounds hgo hpass hsorted hs
  rw [hlist] at h
  exact ordered_place.2 ⟨h, fun d hd => hstart ▸ hfront d hd, fun d hd => hstart ▸ hbehind d hd⟩

/-- **A descent** in an ordered tree leaves it ordered, exactly if a rewritten start fits in
its place. -/
theorem ordered_descend {t : IntervalTree} {entry : IntervalTreeNode}
    {rewrites : IntervalTreeNode → Prop} (hstart : entry.start = n.start)
    (hvisit : Restarts n rewrites visit)
    (hpass : ∀ e ∈ t.visited visit (goLeft n), ∀ e', visit e = .descend e' → e' = e)
    (hrewrites : ∀ parent, rewrites parent → (visit parent).entry.start = n.start)
    (h : Ordered t.toList) :
    Ordered ((t.place visit (goLeft n)).front ++
        (t.place visit (goLeft n)).landed visit entry :: (t.place visit (goLeft n)).behind) ↔
      PlaceOrdered n rewrites (t.place visit (goLeft n)) := by
  cases hs : (t.place visit (goLeft n)).stop with
  | none =>
    rw [Place.landed, hs]
    exact iff_of_true (ordered_added hstart hpass h hs) fun parent hp =>
      absurd (hs.symm.trans hp) (by simp)
  | some parent =>
    have hold := h
    rw [toList_eq_place visit (goLeft n) t, hs] at hold
    obtain ⟨hrest, hfront, hbehind⟩ := ordered_place.1 hold
    rw [Place.landed, hs, ordered_place]
    dsimp only
    constructor
    · rintro ⟨-, hfront', hbehind'⟩ parent' hp hrew
      cases hs.symm.trans hp
      rw [hrewrites parent hrew] at hfront' hbehind'
      exact ⟨hfront', hbehind'⟩
    · intro hplace
      refine ⟨hrest, ?_⟩
      rcases hvisit parent with ⟨hrew, heq⟩ | heq
      · rw [heq]
        exact hplace parent hs hrew
      · rw [heq]
        exact ⟨hfront, hbehind⟩

theorem start_of_lowersStart (h : LowersStart n parent) :
    (coalesce n parent).entry.start = n.start := by
  obtain ⟨hkey, hd, happend, hrange, hprepend⟩ := h
  rw [coalesce, if_pos hkey, if_pos hd, tryExtend, if_neg happend, if_neg hrange, if_pos hprepend]
  rfl

theorem start_of_foldsStart (h : FoldsStart n parent) :
    (foldNode n parent).entry.start = n.start := by
  obtain ⟨hkey, hdiff, hcounts, hcase⟩ := h
  rw [foldNode, if_pos ⟨hkey, hdiff⟩, if_pos hcounts]
  by_cases hbelow : parent.start - n.last = parent.diff.toUInt64
  · rw [if_pos hbelow]
    rfl
  · obtain ⟨habove, hrange, hlt⟩ := hcase.resolve_left hbelow
    rw [if_neg hbelow, if_neg habove, if_pos hrange]
    exact if_neg (UInt64.lt_asymm hlt)

/-! ## The conditions on calls -/

/-- A start lowered by an insertion fits in its place. -/
def InsertOrdered (root : IntervalTree) (c : InsertCall) : Prop :=
  PlaceOrdered c.node (LowersStart c.node) (c.place root)

/-- A start lowered by merging a node fits in its place; and there is a tree to merge the
node into. -/
def MergeOrdered (tree1 : IntervalTree) (n : IntervalTreeNode) : Prop :=
  tree1 ≠ .nil ∧ PlaceOrdered n (FoldsStart n) (tree1.place (foldNode n) (goLeft n))

instance (root : IntervalTree) (c : InsertCall) : Decidable (InsertOrdered root c) :=
  inferInstanceAs (Decidable (PlaceOrdered _ _ _))

instance (tree1 : IntervalTree) : Decidable (MergeOrdered tree1 n) :=
  inferInstanceAs (Decidable (_ ∧ PlaceOrdered _ _ _))

theorem ordered_insertStep_iff {root : IntervalTree} {c : InsertCall} (h : Ordered root.toList) :
    Ordered (insertStep root c).toList ↔ InsertOrdered root c := by
  rw [toList_insertStep]
  exact ordered_descend rfl (restarts_coalesce c.node) (fun e _ e' hv => coalesce_descend hv)
    (fun parent hp => start_of_lowersStart hp) h

theorem ordered_mergeNode {tree1 : IntervalTree} {n : IntervalTreeNode} (h : Ordered tree1.toList)
    (hok : MergeOrdered tree1 n) :
    ∃ tree, mergeNode tree1 n = some tree ∧ Ordered tree.toList := by
  obtain ⟨hne, hplace⟩ := hok
  have hpass : ∀ e ∈ tree1.visited (foldNode n) (goLeft n), ∀ e', foldNode n e = .descend e' →
      e' = e := fun e _ e' hv => foldNode_descend hv
  refine ⟨_, mergeNode_eq n hne, ?_⟩
  rw [toList_descend_place _ _ _ hpass]
  simp only [before, after, List.nil_append, List.append_nil]
  have hstart : (IntervalTreeNode.make n.start n.last n.sizeType n.pc n.mutex).start = n.start :=
    rfl
  exact (ordered_descend hstart (restarts_foldNode n) hpass
    (fun parent hp => start_of_foldsStart hp) h).2 hplace

/-- **The order of every tree**, in every state reached by calls that lower no start below
that of a node in front. -/
theorem ordered_reached (glpk : Glpk) (s : ℕ → IntervalTree)
    (h : Reached InsertOrdered MergeOrdered glpk s) (i : ℕ) : Ordered (s i).toList :=
  (@forall_reached _ _ glpk Ordered (fun _ => True) List.Pairwise.nil (fun _ _ _ _ => trivial)
    (fun _ _ ht hok => (ordered_insertStep_iff ht).2 hok)
    (fun _ _ ht _ hok => ordered_mergeNode ht hok) s h i).1

/-- A write to 0 and, by another instruction, writes to 100 and 108 and then to 92. -/
def downwards : List InsertCall :=
  [⟨0, 0x21, 65, ∅⟩, ⟨100, 0x21, 64, ∅⟩, ⟨108, 0x21, 64, ∅⟩, ⟨92, 0x21, 64, ∅⟩]

/-- Two writes of the latter instruction further down. -/
def furtherDown : List InsertCall := [⟨76, 0x21, 64, ∅⟩, ⟨84, 0x21, 64, ∅⟩]

/-- The second node's start is lowered to 92 by the last insertion, and to 76 by the merge. -/
theorem ordered_reached_downwards : ∃ tree, merge (load downwards) (load furtherDown) = some tree ∧
    tree.toList = [⟨0, 0, 1, 0x21, 0, 65, ∅⟩, ⟨76, 108, 5, 0x21, 8, 64, ∅⟩] ∧
      Ordered tree.toList := by
  have hlist : (merge (load downwards) (load furtherDown)).map Rbtree.toList =
      some [⟨0, 0, 1, 0x21, 0, 65, ∅⟩, ⟨76, 108, 5, 0x21, 8, 64, ∅⟩] := by decide
  obtain ⟨tree, hmerge, hlist⟩ := Option.map_eq_some_iff.1 hlist
  have hreached := @reached_merge InsertOrdered MergeOrdered Glpk.exhaustive _ _ _
    (by decide) (by decide) (by decide) hmerge
  exact ⟨tree, hmerge, hlist, ordered_reached Glpk.exhaustive _ hreached 0⟩

/-- For insertions alone the tree is ordered after every call exactly if every call meets the
condition. -/
theorem ordered_load_iff (calls : List InsertCall) :
    (∀ pre, pre <+: calls → Ordered (load pre).toList) ↔
      Guarded insertStep InsertOrdered .nil calls :=
  prefixes_iff_guarded (I := fun root : IntervalTree => Ordered root.toList)
    (fun _ _ _ h hok => (ordered_insertStep_iff h).2 hok) (fun _ _ _ h => ordered_insertStep_iff h)
    (fun _ h => h) List.Pairwise.nil

/-- A loop that runs downwards from 108 to 92, and a write by another instruction to 95
before its last turn. -/
def loweringWrites : List InsertCall :=
  [⟨100, 0x21, 64, ∅⟩, ⟨108, 0x21, 64, ∅⟩, ⟨95, 0x21, 65, ∅⟩, ⟨92, 0x21, 64, ∅⟩]

/-- The node of the loop is lowered to 92 behind the node that starts at 95. -/
theorem loweringWrites_not_ordered : ¬ Ordered (load loweringWrites).toList := by
  have hstarts : (load loweringWrites).toList.map IntervalTreeNode.start = [95, 92] := by decide
  rw [Ordered, hstarts]
  decide

end Tools
end Sword
