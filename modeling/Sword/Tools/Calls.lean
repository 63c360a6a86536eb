import Sword.Tools.Balance
import Sword.Tools.Overlap

/-!
# Sequences of calls on several trees

The analysis keeps a tree for every thread, and inserts into trees, searches one for
the nodes of another, and merges one into another.  Whatever the order of the calls,
what holds of the empty tree and survives every insertion and every node merged
holds of every tree.

* `mergeTrees` — `interval_tree_merge` with the erasing of the second tree;
  `mergeTrees_eq` says that this ends with an empty tree.
* `Call`, `step`, `Reached` — the calls, and the states reached by sequences of them;
  `reached_concat` adds one.
* `forall_reached` — the rule for invariants of the trees.
-/

namespace Sword
namespace Tools

open Run

/-! ## Merging and erasing -/

/-- `interval_tree_merge`: each turn takes the last node of `tree2`, merges it into
`tree1` and erases it.  The node before it, which `rb_prev` has given before the
erasing, is the last one after it. -/
def mergeTrees (tree1 tree2 : IntervalTree) : Option (IntervalTree × IntervalTree) :=
  match _hlast : tree2.toList.getLast? with
  | none => some (tree1, tree2)
  | some n =>
    match mergeNode tree1 n, _herase : tree2.eraseLast with
    | some tree1, some r => mergeTrees tree1 r.1
    | _, _ => none
termination_by tree2.toList.length
decreasing_by
  have hpos : tree2.toList ≠ [] := fun hnil => by simp [hnil] at _hlast
  rw [toList_eraseLast _herase, List.length_dropLast]
  exact Nat.sub_lt (List.length_pos_of_ne_nil hpos) Nat.one_pos

theorem getLast?_toList_eq_none {t : IntervalTree} (h : t.toList.getLast? = none) : t = .nil :=
  Rbtree.toList_eq_nil_iff.1 (List.getLast?_eq_none_iff.1 h)

/-- **Merging empties the second tree**, and does to the first what merging the nodes of
the second one by one does. -/
theorem mergeTrees_eq {tree1 tree2 : IntervalTree} (h : tree2.IsRedBlack) :
    mergeTrees tree1 tree2 = (merge tree1 tree2).map fun tree => (tree, .nil) := by
  induction hn : tree2.toList.length using Nat.strong_induction_on generalizing tree1 tree2 with
  | _ n ih =>
    subst hn
    rw [mergeTrees]
    split
    · rename_i hlast
      obtain rfl := getLast?_toList_eq_none hlast
      rfl
    · rename_i m hlast
      have hne : tree2 ≠ .nil := by
        rintro rfl
        cases hlast
      obtain ⟨tree2', short, hsome, hrb⟩ := isRedBlack_eraseLast h hne
      have hconcat : tree2.toList = tree2'.toList ++ [m] := by
        rw [toList_eraseLast hsome]
        exact (List.dropLast_append_getLast? m hlast).symm
      have hmerge : merge tree1 tree2 =
          (mergeNode tree1 m).bind fun tree => merge tree tree2' := by
        rw [merge, hconcat, List.reverse_append, List.reverse_singleton, List.singleton_append,
          List.foldlM_cons]
        rfl
      have hlt : tree2'.toList.length < tree2.toList.length := by
        rw [hconcat, List.length_append, List.length_singleton]
        omega
      rw [hmerge]
      split
      · rename_i tree r htree herase
        rw [hsome] at herase
        obtain rfl := Option.some.inj herase
        rw [htree]
        exact ih _ hlt hrb rfl
      · rename_i hno
        cases htree : mergeNode tree1 m with
        | none => rfl
        | some tree => exact (hno tree (tree2', short) htree hsome).elim

/-! ## Calls -/

/-- A call on the trees with these numbers. -/
inductive Call
  | insert (i : ℕ) (c : InsertCall)
  | overlap (i j : ℕ)
  | merge (i j : ℕ)

/-- One call: `interval_tree_insert_data`, `interval_tree_overlap` or
`interval_tree_merge`. -/
def step (glpk : Glpk) (s : ℕ → IntervalTree) : Call → Option (ℕ → IntervalTree)
  | .insert i c => some (Function.update s i (insertStep (s i) c))
  | .overlap i j => some (Function.update s i (overlap glpk (s i) (s j)).1)
  | .merge i j => (mergeTrees (s i) (s j)).map fun r =>
      Function.update (Function.update s i r.1) j r.2

section Reached

variable (okInsert : IntervalTree → InsertCall → Prop)
  (okMerge : IntervalTree → IntervalTreeNode → Prop)

/-- Conditions on the accesses inserted and the nodes merged.  A tree is merged into
another one, as the pairing loop does. -/
def Allowed (s : ℕ → IntervalTree) : Call → Prop
  | .insert i c => okInsert (s i) c
  | .overlap _ _ => True
  | .merge i j => i ≠ j ∧ GuardedM mergeNode okMerge (s i) (s j).toList.reverse

instance [∀ t c, Decidable (okInsert t c)] [∀ t n, Decidable (okMerge t n)]
    (s : ℕ → IntervalTree) : (call : Call) → Decidable (Allowed okInsert okMerge s call)
  | .insert i c => inferInstanceAs (Decidable (okInsert (s i) c))
  | .overlap _ _ => isTrue trivial
  | .merge _ _ => inferInstanceAs (Decidable (_ ∧ _))

/-- The states reached from empty trees by calls that meet the conditions. -/
def Reached (glpk : Glpk) (s : ℕ → IntervalTree) : Prop :=
  ∃ calls : List Call, GuardedM (step glpk) (Allowed okInsert okMerge) (fun _ => .nil) calls ∧
    calls.foldlM (step glpk) (fun _ => .nil) = some s

variable {okInsert okMerge}

/-- One more call. -/
theorem reached_concat {glpk : Glpk} {s s' : ℕ → IntervalTree} {call : Call}
    (h : Reached okInsert okMerge glpk s) (hok : Allowed okInsert okMerge s call)
    (hsome : step glpk s call = some s') : Reached okInsert okMerge glpk s' := by
  obtain ⟨calls, hg, hrun⟩ := h
  refine ⟨calls ++ [call], (guardedM_append hrun).2 ⟨hg, hok, fun _ _ => trivial⟩, ?_⟩
  rw [List.foldlM_append, hrun]
  simp [hsome]

/-- A merge is the merging of the nodes one by one, and empties the second tree. -/
theorem step_merge {glpk : Glpk} {s : ℕ → IntervalTree} {i j : ℕ} {tree : IntervalTree}
    (hrb : (s j).IsRedBlack) (hmerge : merge (s i) (s j) = some tree) :
    step glpk s (.merge i j) = some (Function.update (Function.update s i tree) j .nil) := by
  rw [step, mergeTrees_eq hrb, hmerge]
  rfl

theorem isRedBlack_insertStep {root : IntervalTree} {c : InsertCall} (h : root.IsRedBlack) :
    (insertStep root c).IsRedBlack := by
  obtain ⟨n, h⟩ := h
  exact balanced_descend (c := .black) rfl h

theorem isRedBlack_load (calls : List InsertCall) : (load calls).IsRedBlack :=
  invariant (fun _ _ h => isRedBlack_insertStep h) isRedBlack_nil calls

theorem isRedBlack_mergeNode {tree1 tree : IntervalTree} {n : IntervalTreeNode}
    (h : tree1.IsRedBlack) (hsome : mergeNode tree1 n = some tree) : tree.IsRedBlack := by
  obtain ⟨m, h⟩ := h
  cases tree1 with
  | nil => cases hsome
  | node c l e b r =>
    rw [← Option.some.inj hsome]
    exact balanced_descend (c := .black) rfl h

theorem isRedBlack_overlap {glpk : Glpk} {tree1 tree2 : IntervalTree} (h : tree1.IsRedBlack) :
    (overlap glpk tree1 tree2).1.IsRedBlack := by
  rw [overlap]
  suffices hall : ∀ (nodes : List IntervalTreeNode)
      (s : IntervalTree × List (IntervalTreeNode × IntervalTreeNode)), s.1.IsRedBlack →
        (nodes.foldl (overlapNode glpk) s).1.IsRedBlack from hall _ _ h
  intro nodes
  induction nodes with
  | nil => exact fun s h => h
  | cons n nodes ih =>
    intro s h
    obtain ⟨m, h⟩ := h
    exact ih _ ⟨m, balanced_walk h⟩

/-- A tree before and after the merging of one node. -/
theorem merge_induction {P : IntervalTree → Prop} {Q : IntervalTreeNode → Prop}
    (hmerge : ∀ t n, P t → Q n → okMerge t n → ∃ t', mergeNode t n = some t' ∧ P t')
    {tree1 tree2 : IntervalTree} (h1 : P tree1) (h2 : ∀ n ∈ tree2.toList, Q n)
    (hrb : tree1.IsRedBlack) (hg : GuardedM mergeNode okMerge tree1 tree2.toList.reverse) :
    ∃ tree, merge tree1 tree2 = some tree ∧ P tree ∧ tree.IsRedBlack := by
  rw [merge]
  have h2' : ∀ n ∈ tree2.toList.reverse, Q n := fun n hn => h2 n (List.mem_reverse.1 hn)
  generalize tree2.toList.reverse = nodes at hg h2'
  induction nodes generalizing tree1 with
  | nil => exact ⟨tree1, rfl, h1, hrb⟩
  | cons n nodes ih =>
    obtain ⟨t', hsome, ht'⟩ := hmerge tree1 n h1 (h2' n List.mem_cons_self) hg.1
    obtain ⟨tree, hrun, htree⟩ := ih ht' (isRedBlack_mergeNode hrb hsome) (hg.2 t' hsome)
      fun m hm => h2' m (List.mem_cons_of_mem _ hm)
    exact ⟨tree, by rw [List.foldlM_cons, hsome]; exact hrun, htree⟩

/-- What the call makes of the tree it writes to has the property. -/
def Keeps (glpk : Glpk) (P : IntervalTree → Prop) (s : ℕ → IntervalTree) : Call → Prop
  | .insert i c => P (insertStep (s i) c)
  | .overlap i j => P (overlap glpk (s i) (s j)).1
  | .merge i j => ∃ tree, merge (s i) (s j) = some tree ∧ P tree ∧ tree.IsRedBlack

/-- A property of the tree written to is one of every tree, and the call does not fail. -/
theorem step_keeps {glpk : Glpk} {P : IntervalTree → Prop} (hnil : P .nil) {s : ℕ → IntervalTree}
    (hs : ∀ i, P (s i) ∧ (s i).IsRedBlack) {call : Call} (hcall : Keeps glpk P s call) :
    ∃ s', step glpk s call = some s' ∧ ∀ i, P (s' i) ∧ (s' i).IsRedBlack := by
  have hupdate : ∀ {s : ℕ → IntervalTree} {j : ℕ} {t : IntervalTree},
      (∀ i, P (s i) ∧ (s i).IsRedBlack) → P t ∧ t.IsRedBlack →
        ∀ i, P (Function.update s j t i) ∧ (Function.update s j t i).IsRedBlack := by
    intro s j t hs ht i
    by_cases hi : i = j
    · rw [hi, Function.update_self]
      exact ht
    · rw [Function.update_of_ne hi]
      exact hs i
  cases call with
  | insert i c => exact ⟨_, rfl, hupdate hs ⟨hcall, isRedBlack_insertStep (hs i).2⟩⟩
  | overlap i j => exact ⟨_, rfl, hupdate hs ⟨hcall, isRedBlack_overlap (hs i).2⟩⟩
  | merge i j =>
    obtain ⟨tree, hsome, htree⟩ := hcall
    exact ⟨_, step_merge (hs j).2 hsome, hupdate (hupdate hs htree) ⟨hnil, isRedBlack_nil⟩⟩

/-- **The rule for invariants.**  What holds of no nodes at all, survives every insertion
and every node merged, holds of the nodes of every tree; the trees are red-black; and no
call fails. -/
theorem step_preserves {glpk : Glpk} {P : List IntervalTreeNode → Prop}
    {Q : IntervalTreeNode → Prop} (hnil : P []) (hnodes : ∀ es, P es → ∀ n ∈ es, Q n)
    (hinsert : ∀ t c, P t.toList → okInsert t c → P (insertStep t c).toList)
    (hmerge : ∀ t n, P t.toList → Q n → okMerge t n → ∃ t', mergeNode t n = some t' ∧ P t'.toList)
    {s : ℕ → IntervalTree} (hs : ∀ i, P (s i).toList ∧ (s i).IsRedBlack) {call : Call}
    (hok : Allowed okInsert okMerge s call) :
    ∃ s', step glpk s call = some s' ∧ ∀ i, P (s' i).toList ∧ (s' i).IsRedBlack := by
  refine step_keeps (P := fun t => P t.toList) hnil hs ?_
  cases call with
  | insert i c => exact hinsert _ c (hs i).1 hok
  | overlap i j =>
    rw [Keeps, toList_overlap]
    exact (hs i).1
  | merge i j =>
    exact merge_induction (P := fun t => P t.toList) hmerge (hs i).1 (hnodes _ (hs j).1) (hs i).2
      hok.2

theorem forall_reached {glpk : Glpk} {P : List IntervalTreeNode → Prop}
    {Q : IntervalTreeNode → Prop} (hnil : P []) (hnodes : ∀ es, P es → ∀ n ∈ es, Q n)
    (hinsert : ∀ t c, P t.toList → okInsert t c → P (insertStep t c).toList)
    (hmerge : ∀ t n, P t.toList → Q n → okMerge t n → ∃ t', mergeNode t n = some t' ∧ P t'.toList)
    {s : ℕ → IntervalTree} (h : Reached okInsert okMerge glpk s) (i : ℕ) :
    P (s i).toList ∧ (s i).IsRedBlack := by
  obtain ⟨calls, hg, hrun⟩ := h
  obtain ⟨s', hrun', hs'⟩ := @invariant_guardedM (ℕ → IntervalTree) Call _ _
    (fun _ s => ∀ i, P (s i).toList ∧ (s i).IsRedBlack)
    (fun _ _ _ hs hok => step_preserves hnil hnodes hinsert hmerge hs hok) []
    (fun _ => Rbtree.nil) (fun _ => ⟨hnil, isRedBlack_nil⟩) _ hg
  rw [hrun] at hrun'
  rw [Option.some.inj hrun']
  exact hs' i

/-- The accesses of a thread, inserted one after the other. -/
theorem reached_load {glpk : Glpk} {s : ℕ → IntervalTree} {i : ℕ} {calls : List InsertCall}
    (h : Reached okInsert okMerge glpk s) (hg : Guarded insertStep okInsert (s i) calls) :
    Reached okInsert okMerge glpk (Function.update s i (exec insertStep (s i) calls)) := by
  induction calls generalizing s with
  | nil => rwa [exec_nil, Function.update_eq_self]
  | cons c calls ih =>
    have hone : Reached okInsert okMerge glpk (Function.update s i (insertStep (s i) c)) :=
      @reached_concat _ _ _ _ _ (.insert i c) h hg.1 rfl
    have hmore := ih hone (by rw [Function.update_self]; exact hg.2)
    rwa [Function.update_self, Function.update_idem] at hmore

/-- The accesses of two threads, each inserted into its tree, and the second tree merged into
the first. -/
theorem reached_merge {glpk : Glpk} {calls1 calls2 : List InsertCall} {tree : IntervalTree}
    (h1 : Guarded insertStep okInsert .nil calls1) (h2 : Guarded insertStep okInsert .nil calls2)
    (hg : GuardedM mergeNode okMerge (load calls1) (load calls2).toList.reverse)
    (hmerge : merge (load calls1) (load calls2) = some tree) :
    Reached okInsert okMerge glpk (Function.update (fun _ => .nil) 0 tree) := by
  have hempty : Reached okInsert okMerge glpk fun _ => .nil := ⟨[], trivial, rfl⟩
  have hfirst := @reached_load _ _ _ _ 0 _ hempty h1
  have hboth := @reached_load _ _ _ _ 1 _ hfirst h2
  have hmerged := @reached_concat _ _ _ _ _ (.merge 0 1) hboth ⟨by decide, hg⟩
    (step_merge (isRedBlack_load calls2) hmerge)
  convert hmerged using 1
  funext i
  by_cases h0 : i = 0
  · simp [h0]
  · by_cases h1 : i = 1
    · simp [h1]
    · simp [h0, h1]

/-- A write of four bytes to this address by this instruction, in the only node of a
tree. -/
def oneWrite (address pc : UInt64) : IntervalTree := insertStep .nil ⟨address, 0x21, pc, ∅⟩

/-- Two trees with a write each. -/
def twoTrees : ℕ → IntervalTree :=
  Function.update (Function.update (fun _ => .nil) 0 (oneWrite 4096 64)) 1 (oneWrite 4096 65)

theorem reached_twoTrees {glpk : Glpk} (h : ∀ c, okInsert .nil c) :
    Reached okInsert okMerge glpk twoTrees := by
  refine ⟨[.insert 0 ⟨4096, 0x21, 64, ∅⟩, .insert 1 ⟨4096, 0x21, 65, ∅⟩], ⟨h _, ?_⟩, rfl⟩
  intro s hs
  cases hs
  exact ⟨h _, fun _ _ => trivial⟩

end Reached

end Tools
end Sword
