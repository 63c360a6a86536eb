import Sword.Lib.Run
import Sword.Tools.IntervalTree

/-!
# What a tree stands for

The accesses a tree stands for are the addresses of its nodes, each with the size,
type, program counter and lockset of its node.  Under a condition on the nodes that
the search path visits, insertion adds exactly the access inserted, and merging
adds exactly the nodes merged.

* `footprint` — the accesses of a list of nodes.
* `footprint_descended` — the accesses after a descent.
* `InsertFits`, `InsertKept` — the conditions on an insertion; `insertStep_spec`,
  and `load_sound`, `load_complete` for all insertions of a thread.
* `MergeFits` — the condition on a node merged; `mergeNode_spec`, and `merge_spec`
  for a whole tree.
-/

namespace Sword
namespace Tools

open Progression Run

/-! ## Footprints -/

/-- Size and type, program counter and lockset. -/
abbrev Key := UInt8 × UInt64 × Finset UInt64

/-- The key of a node. -/
def IntervalTreeNode.key (n : IntervalTreeNode) : Key := (n.sizeType, n.pc, n.mutex)

/-- The key of an access. -/
def InsertCall.key (c : InsertCall) : Key := (c.sizeType, c.pc, c.mutex)

/-- An access: its key and its address. -/
def InsertCall.access (c : InsertCall) : Key × ℕ := (c.key, c.address.toNat)

theorem sameKey_iff {n m : IntervalTreeNode} : SameKey n m ↔ n.key = m.key := by
  simp [SameKey, IntervalTreeNode.key]

/-- The accesses a list of nodes stands for. -/
def footprint (es : List IntervalTreeNode) : Set (Key × ℕ) :=
  {x | ∃ n ∈ es, n.key = x.1 ∧ x.2 ∈ n.addresses}

@[simp] theorem footprint_nil : footprint [] = ∅ := by
  ext x
  simp [footprint]

theorem footprint_append (es fs : List IntervalTreeNode) :
    footprint (es ++ fs) = footprint es ∪ footprint fs := by
  ext x
  simp only [footprint, List.mem_append, Set.mem_ofPred_eq, Set.mem_union, or_and_right, exists_or]

theorem footprint_cons (n : IntervalTreeNode) (es : List IntervalTreeNode) :
    footprint (n :: es) = footprint [n] ∪ footprint es := footprint_append [n] es

theorem mem_footprint_singleton {n : IntervalTreeNode} {x : Key × ℕ} :
    x ∈ footprint [n] ↔ n.key = x.1 ∧ x.2 ∈ n.addresses := by
  simp [footprint]

theorem footprint_reverse (es : List IntervalTreeNode) : footprint es.reverse = footprint es := by
  ext x
  simp [footprint]

/-- Every node is well formed. -/
def AllWellFormed (es : List IntervalTreeNode) : Prop := ∀ n ∈ es, n.WellFormed

/-- Every node is compact. -/
def AllCompact (es : List IntervalTreeNode) : Prop := ∀ n ∈ es, n.Compact

theorem AllCompact.allWellFormed {es : List IntervalTreeNode} (h : AllCompact es) :
    AllWellFormed es := fun n hn => (h n hn).toWellFormed

/-! ## A descent -/

variable {n entry : IntervalTreeNode} {visit : IntervalTreeNode → Visit IntervalTreeNode}
  {seen es fs : List IntervalTreeNode}

/-- The accesses of `n`, where the descent for `n` ends at nodes of its key and
lets them absorb it, or adds it. -/
theorem footprint_descended (h : Descended visit entry seen es fs) (hkey : entry.key = n.key)
    (haddr : entry.addresses ⊆ n.addresses)
    (hstop : ∀ e ∈ seen, ∀ e', visit e = .stop e' → SameKey n e ∧ Absorbed n.addresses e e') :
    footprint es ⊆ footprint fs ∧ footprint fs ⊆ footprint es ∪ footprint [n] := by
  cases h with
  | @stopped pre post e e' hsplit hseen hvisit =>
    subst hsplit
    obtain ⟨hsame, habs⟩ := hstop e hseen e' hvisit
    have hkey' : e'.key = e.key := sameKey_iff.1 habs.key
    have hlo : footprint [e] ⊆ footprint [e'] := by
      intro x hx
      rw [mem_footprint_singleton] at hx ⊢
      exact ⟨hkey'.trans hx.1, habs.keeps hx.2⟩
    have hhi : footprint [e'] ⊆ footprint [e] ∪ footprint [n] := by
      intro x hx
      rw [mem_footprint_singleton] at hx
      rcases habs.sound hx.2 with h | h
      · exact Or.inl (mem_footprint_singleton.2 ⟨hkey'.symm.trans hx.1, h⟩)
      · exact Or.inr (mem_footprint_singleton.2
          ⟨((sameKey_iff.1 hsame).trans hkey'.symm).trans hx.1, h⟩)
    rw [footprint_append, footprint_append, footprint_cons e, footprint_cons e']
    refine ⟨Set.union_subset_union_right _ (Set.union_subset_union_left _ hlo), ?_⟩
    rintro x (hx | hx | hx)
    · exact Or.inl (Or.inl hx)
    · exact (hhi hx).imp_left fun h => Or.inr (Or.inl h)
    · exact Or.inl (Or.inr (Or.inr hx))
  | @added pre post hsplit hvisit =>
    subst hsplit
    rw [footprint_append, footprint_append, footprint_cons entry]
    refine ⟨Set.union_subset_union_right _ Set.subset_union_right, ?_⟩
    rintro x (hx | hx | hx)
    · exact Or.inl (Or.inl hx)
    · rw [mem_footprint_singleton] at hx
      exact Or.inr (mem_footprint_singleton.2 ⟨hkey.symm.trans hx.1, haddr hx.2⟩)
    · exact Or.inl (Or.inr hx)

/-- The accesses of `n` are there, if the node the descent ends at takes all of them
in, and a node added has all of them. -/
theorem footprint_descended_complete (h : Descended visit entry seen es fs)
    (hkey : entry.key = n.key)
    (hstop : ∀ e ∈ seen, ∀ e', visit e = .stop e' →
      e'.key = n.key ∧ n.addresses ⊆ e'.addresses)
    (hadd : (∀ e ∈ seen, visit e = .descend e) → n.addresses ⊆ entry.addresses) :
    footprint [n] ⊆ footprint fs := by
  intro x hx
  rw [mem_footprint_singleton] at hx
  cases h with
  | @stopped pre post e e' hsplit hseen hvisit =>
    obtain ⟨hkey', hsub⟩ := hstop e hseen e' hvisit
    exact ⟨e', List.mem_append_right pre List.mem_cons_self, hkey'.trans hx.1, hsub hx.2⟩
  | @added pre post hsplit hvisit =>
    exact ⟨entry, List.mem_append_right pre List.mem_cons_self, hkey.trans hx.1,
      hadd hvisit hx.2⟩

/-- The nodes a descent visits are nodes of the tree. -/
theorem mem_toList_of_mem_visited {α β : Type} {visit : α → Visit α} {left : α → Bool}
    {t : Rbtree α β} {e : α} (h : e ∈ t.visited visit left) : e ∈ t.toList := by
  induction t with
  | nil => exact h
  | node c l d b r ihl ihr =>
    rw [Rbtree.toList, List.mem_append, List.mem_cons]
    unfold Rbtree.visited at h
    split at h
    · exact Or.inr (Or.inl (List.mem_singleton.1 h))
    · rcases List.mem_cons.1 h with rfl | h
      · exact Or.inr (Or.inl rfl)
      · split at h
        · exact Or.inl (ihl h)
        · exact Or.inr (Or.inr (ihr h))

/-! ## Insertion -/

/-- At no node of the search path does the progression wrap around. -/
def InsertFits (root : IntervalTree) (c : InsertCall) : Prop :=
  ∀ parent ∈ root.visited (coalesce c.node) (goLeft c.node),
    SameKey c.node parent → Fits c.node parent

instance (root : IntervalTree) (c : InsertCall) : Decidable (InsertFits root c) :=
  List.decidableBAll _ _

/-- At no node of the search path is the access dropped. -/
def InsertKept (root : IntervalTree) (c : InsertCall) : Prop :=
  ∀ parent ∈ root.visited (coalesce c.node) (goLeft c.node),
    SameKey c.node parent → Kept c.node parent

theorem InsertCall.compact_node (c : InsertCall) : c.node.Compact :=
  IntervalTreeNode.compact_make ..

theorem InsertCall.addresses_node (c : InsertCall) : c.node.addresses = {c.address.toNat} :=
  IntervalTreeNode.addresses_make ..

theorem InsertCall.footprint_node (c : InsertCall) : footprint [c.node] = {c.access} := by
  ext ⟨key, a⟩
  rw [mem_footprint_singleton, c.addresses_node, Set.mem_singleton_iff, Set.mem_singleton_iff]
  show c.key = key ∧ a = c.address.toNat ↔ (key, a) = (c.key, c.address.toNat)
  constructor
  · rintro ⟨rfl, rfl⟩
    rfl
  · intro h
    cases h
    exact ⟨rfl, rfl⟩

/-- **Insertion** invents nothing, loses nothing that is there, and loses the access
inserted only if it is dropped. -/
theorem insertStep_spec {root : IntervalTree} {c : InsertCall} (hwf : AllCompact root.toList)
    (hfits : InsertFits root c) :
    AllCompact (insertStep root c).toList ∧
      footprint root.toList ⊆ footprint (insertStep root c).toList ∧
      footprint (insertStep root c).toList ⊆ insert c.access (footprint root.toList) ∧
      (InsertKept root c → c.access ∈ footprint (insertStep root c).toList) := by
  have hseen : ∀ e ∈ root.visited (coalesce c.node) (goLeft c.node), e.Compact :=
    fun e he => hwf e (mem_toList_of_mem_visited he)
  have hdesc := insertStep_descended root c
  have hstop : ∀ e ∈ root.visited (coalesce c.node) (goLeft c.node),
      ∀ e', coalesce c.node e = .stop e' →
        SameKey c.node e ∧ e'.Compact ∧ Absorbed c.node.addresses e e' ∧
          (Kept c.node e → c.node.addresses ⊆ e'.addresses) := by
    intro e he e' hv
    obtain ⟨hkey, hwf', habs, hmem⟩ := coalesce_stop (hseen e he) (hfits e he) hv
    rw [c.addresses_node]
    exact ⟨hkey, hwf', habs, fun hkept => Set.singleton_subset_iff.2 (hmem hkept)⟩
  have hwf' : AllCompact (insertStep root c).toList :=
    hdesc.all hwf c.compact_node fun e he _ e' hv => (hstop e he e' hv).2.1
  obtain ⟨hlo, hhi⟩ := footprint_descended hdesc rfl subset_rfl
    fun e he e' hv => ⟨(hstop e he e' hv).1, (hstop e he e' hv).2.2.1⟩
  rw [c.footprint_node, Set.union_singleton] at hhi
  refine ⟨hwf', hlo, hhi, fun hkept => ?_⟩
  have hcomplete := footprint_descended_complete (n := c.node) hdesc rfl
    (fun e he e' hv => by
      obtain ⟨hkey, -, habs, hsub⟩ := hstop e he e' hv
      exact ⟨(sameKey_iff.1 habs.key).trans (sameKey_iff.1 hkey).symm, hsub (hkept e he hkey)⟩)
    (fun _ => subset_rfl)
  rw [c.footprint_node] at hcomplete
  exact Set.singleton_subset_iff.1 hcomplete

/-- The accesses of a sequence of calls. -/
def accesses (calls : List InsertCall) : Set (Key × ℕ) := {x | ∃ c ∈ calls, c.access = x}

theorem accesses_concat (calls : List InsertCall) (c : InsertCall) :
    accesses (calls ++ [c]) = insert c.access (accesses calls) := by
  ext x
  simp only [accesses, List.mem_append, List.mem_singleton, or_and_right, exists_or,
    exists_eq_left, Set.mem_ofPred_eq, Set.mem_insert_iff]
  rw [or_comm, eq_comm]

/-- The tree of a thread: its calls from an empty tree on. -/
def load (calls : List InsertCall) : IntervalTree := exec insertStep .nil calls

/-- The tree of a thread stands for accesses of the thread only. -/
theorem load_sound {calls : List InsertCall} (h : Guarded insertStep InsertFits .nil calls) :
    AllCompact (load calls).toList ∧ footprint (load calls).toList ⊆ accesses calls := by
  refine @invariant_history _ _ _ _
    (fun done root => AllCompact root.toList ∧ footprint root.toList ⊆ accesses done)
    ?_ [] _ ⟨fun n hn => (List.not_mem_nil hn).elim, ?_⟩ _ h
  · rintro done root c ⟨hwf, hsub⟩ hfits
    obtain ⟨hwf', -, hhi, -⟩ := insertStep_spec hwf hfits
    rw [accesses_concat]
    exact ⟨hwf', hhi.trans (Set.insert_subset_insert hsub)⟩
  · show footprint [] ⊆ _
    rw [footprint_nil]
    exact Set.empty_subset _

/-- If no access is dropped, it stands for all of them. -/
theorem load_complete {calls : List InsertCall}
    (h : Guarded insertStep (fun root c => InsertFits root c ∧ InsertKept root c) .nil calls) :
    AllCompact (load calls).toList ∧ accesses calls ⊆ footprint (load calls).toList := by
  refine @invariant_history _ _ _ _
    (fun done root => AllCompact root.toList ∧ accesses done ⊆ footprint root.toList)
    ?_ [] _ ⟨fun n hn => (List.not_mem_nil hn).elim, ?_⟩ _ h
  · rintro done root c ⟨hwf, hsub⟩ ⟨hfits, hkept⟩
    obtain ⟨hwf', hlo, -, hmem⟩ := insertStep_spec hwf hfits
    rw [accesses_concat]
    exact ⟨hwf', Set.insert_subset (hmem hkept) (hsub.trans hlo)⟩
  · rintro x ⟨c, hc, -⟩
    exact (List.not_mem_nil hc).elim

/-! ## Merging -/

/-- A node of `tree2` can be merged: `tree1` has a node the search can start from;
the nodes of the search path can be folded with it; and a node that is added, not
folded, has one element. -/
structure MergeFits (tree1 : IntervalTree) (n : IntervalTreeNode) : Prop where
  notEmpty : tree1 ≠ .nil
  foldable : ∀ parent ∈ tree1.visited (foldNode n) (goLeft n),
    SameKey n parent → n.diff = parent.diff → parent.diff ≠ 0 → Foldable n parent
  single : (∀ parent ∈ tree1.visited (foldNode n) (goLeft n),
    foldNode n parent = .descend parent) → n.count = 1

/-- **Merging one node** adds its accesses and no others. -/
theorem mergeNode_spec {tree1 : IntervalTree} {n : IntervalTreeNode}
    (hwf : AllWellFormed tree1.toList) (hn : n.WellFormed) (hfits : MergeFits tree1 n) :
    ∃ tree, mergeNode tree1 n = some tree ∧ AllWellFormed tree.toList ∧
      footprint tree.toList = footprint tree1.toList ∪ footprint [n] := by
  obtain ⟨tree, hsome, hdesc⟩ := mergeNode_descended hfits.notEmpty hn.diff_eq_zero hfits.single
  refine ⟨tree, hsome, ?_⟩
  have hstop : ∀ e ∈ tree1.visited (foldNode n) (goLeft n),
      ∀ e', foldNode n e = .stop e' → SameKey n e ∧ e'.WellFormed ∧
        Absorbed n.addresses e e' ∧ n.addresses ⊆ e'.addresses :=
    fun e he e' hv => foldNode_stop hn (hwf e (mem_toList_of_mem_visited he))
      (hfits.foldable e he) hv
  have hwf' : AllWellFormed tree.toList :=
    hdesc.all hwf hn fun e he _ e' hv => (hstop e he e' hv).2.1
  obtain ⟨hlo, hhi⟩ := footprint_descended hdesc rfl subset_rfl
    fun e he e' hv => ⟨(hstop e he e' hv).1, (hstop e he e' hv).2.2.1⟩
  have hcomplete := footprint_descended_complete (n := n) hdesc rfl
    (fun e he e' hv => by
      obtain ⟨hkey, -, habs, hsub⟩ := hstop e he e' hv
      exact ⟨(sameKey_iff.1 habs.key).trans (sameKey_iff.1 hkey).symm, hsub⟩)
    (fun _ => subset_rfl)
  exact ⟨hwf', hhi.antisymm (Set.union_subset hlo hcomplete)⟩

/-- **Merging** is union, if every node of `tree2` can be merged. -/
theorem merge_spec {tree1 tree2 : IntervalTree} (hwf1 : AllWellFormed tree1.toList)
    (hwf2 : AllWellFormed tree2.toList)
    (h : GuardedM mergeNode MergeFits tree1 tree2.toList.reverse) :
    ∃ tree, merge tree1 tree2 = some tree ∧ AllWellFormed tree.toList ∧
      footprint tree.toList = footprint tree1.toList ∪ footprint tree2.toList := by
  have hguard : ∀ {nodes : List IntervalTreeNode} {t : IntervalTree}, AllWellFormed nodes →
      GuardedM mergeNode MergeFits t nodes →
      GuardedM mergeNode (fun t n => n.WellFormed ∧ MergeFits t n) t nodes := by
    intro nodes
    induction nodes with
    | nil => exact fun _ _ => trivial
    | cons n nodes ih =>
      intro t hall hg
      exact ⟨⟨hall n List.mem_cons_self, hg.1⟩, fun t' ht' =>
        ih (fun m hm => hall m (List.mem_cons_of_mem _ hm)) (hg.2 t' ht')⟩
  obtain ⟨tree, hrun, hwf, hset⟩ := @invariant_guardedM _ _ _ _
    (fun done tree => AllWellFormed tree.toList ∧
      footprint tree.toList = footprint tree1.toList ∪ footprint done)
    (by
      rintro done tree n ⟨hwf, hset⟩ ⟨hn, hfits⟩
      obtain ⟨tree', hsome, hwf', hset'⟩ := mergeNode_spec hwf hn hfits
      refine ⟨tree', hsome, hwf', ?_⟩
      rw [hset', hset, footprint_append, Set.union_assoc])
    [] _ ⟨hwf1, by rw [footprint_nil, Set.union_empty]⟩ _
    (hguard (fun n hn => hwf2 n (List.mem_reverse.1 hn)) h)
  rw [List.nil_append, footprint_reverse] at hset
  exact ⟨tree, hrun, hwf, hset⟩

end Tools
end Sword
