import Sword.Tools.Analysis
import Sword.Tools.Represents

/-!
# The parent of a node linked: `rb_link_node`

A search that ends at a missing child links the new node there: `link` is the slot and
`rb_parent` the node the slot belongs to.  `interval_tree_insert_data` starts with the slot
of the root and a null parent.  `interval_tree_merge` starts every search with the slot of
the root too, but `rb_parent` has no value before the first node is visited.

* `RbParent`, `linkOf`, `WellSet` — the two arguments of `rb_link_node`.
* `wellSet_insert`, `linkSet_iff` — they fit together in every insertion, and in merging if
  the first tree is not empty.
* `LinksSet`, `linked_iff` — in the calls of the pairing loop: exactly if in no match but
  the last all threads of the first tree were idle, and not all those of the second.
-/

namespace Sword
namespace Tools

open Run Tournament

/-! ## The arguments -/

/-- What `rb_parent` is: not set, or set in the search for an earlier node, or null, or the node
in the slot at this position. -/
inductive RbParent
  | unset | earlier | null
  | node (position : List Dir)
  deriving DecidableEq

variable {α β : Type}

/-- `rb_parent` and `link` when a search has reached a missing child. -/
def linkOf (visit : α → Visit α) (goLeft : α → Bool) :
    RbParent → List Dir → Rbtree α β → Option (RbParent × List Dir)
  | rbParent, link, .nil => some (rbParent, link)
  | _, link, .node _ l e _ r =>
    match visit e with
    | .stop _ => none
    | .descend e' =>
      if goLeft e' then linkOf visit goLeft (.node link) (link ++ [.left]) l
      else linkOf visit goLeft (.node link) (link ++ [.right]) r

/-- `rb_parent` is the node to which the slot belongs, and null for the slot of the root. -/
inductive WellSet : RbParent → List Dir → Prop
  | root : WellSet .null []
  | child (position : List Dir) (dir : Dir) : WellSet (.node position) (position ++ [dir])

variable {visit : α → Visit α} {goLeft : α → Bool}

/-- Once a node has been visited, they fit together. -/
theorem wellSet_linkOf {t : Rbtree α β} {rbParent : RbParent} {link : List Dir}
    (h : t = .nil → WellSet rbParent link) :
    ∀ a ∈ linkOf visit goLeft rbParent link t, WellSet a.1 a.2 := by
  induction t generalizing rbParent link with
  | nil =>
    rintro a ha
    rw [linkOf, Option.mem_some_iff] at ha
    exact ha ▸ h rfl
  | node c l e b r ihl ihr =>
    intro a ha
    rw [linkOf] at ha
    cases hv : visit e with
    | stop e' =>
      rw [hv] at ha
      cases ha
    | descend e' =>
      rw [hv] at ha
      dsimp only at ha
      split at ha
      · exact ihl (fun _ => .child link .left) a ha
      · exact ihr (fun _ => .child link .right) a ha

/-- `rb_link_node` is reached exactly if the search does not end at a node. -/
theorem linkOf_isSome_iff {t : Rbtree α β} {rbParent : RbParent} {link : List Dir} :
    (linkOf visit goLeft rbParent link t).isSome ↔ (t.place visit goLeft).stop = none := by
  induction t generalizing rbParent link with
  | nil => simp [linkOf, Rbtree.place]
  | node c l e b r ihl ihr =>
    rw [linkOf, Rbtree.place]
    cases hv : visit e with
    | stop e' => simp
    | descend e' =>
      dsimp only
      split
      · exact ihl
      · exact ihr

/-- **Every insertion** links its node to the right parent. -/
theorem wellSet_insert (root : IntervalTree) (c : InsertCall) :
    ∀ a ∈ linkOf (coalesce c.node) (Tools.goLeft c.node) .null [] root, WellSet a.1 a.2 :=
  wellSet_linkOf fun _ => .root

/-! ## Merging -/

/-- One node of `tree2`, with `rb_parent`, which keeps its value for the next one. -/
def mergeLinked (s : IntervalTree × RbParent) (n : IntervalTreeNode) :
    Option (IntervalTree × RbParent) :=
  (mergeNode s.1 n).map fun tree => (tree, .earlier)

/-- If the node is linked, it is to the right parent. -/
def LinkSet (s : IntervalTree × RbParent) (n : IntervalTreeNode) : Prop :=
  ∀ a ∈ linkOf (foldNode n) (Tools.goLeft n) s.2 [] s.1, WellSet a.1 a.2

theorem linkSet_iff {tree1 : IntervalTree} {n : IntervalTreeNode} :
    LinkSet (tree1, .unset) n ↔ tree1 ≠ .nil := by
  constructor
  · rintro h rfl
    cases h (.unset, []) rfl
  · exact fun hne => wellSet_linkOf fun h => absurd h hne

/-- This is what merging comes to when `rb_parent` is left out. -/
theorem foldlM_mergeLinked (nodes : List IntervalTreeNode) (s : IntervalTree × RbParent) :
    (nodes.foldlM mergeLinked s).map Prod.fst = nodes.foldlM mergeNode s.1 := by
  induction nodes generalizing s with
  | nil => rfl
  | cons n nodes ih =>
    rw [List.foldlM_cons, List.foldlM_cons, mergeLinked]
    cases mergeNode s.1 n with
    | none => rfl
    | some tree => exact ih (tree, .earlier)

theorem mergeNode_ne_nil {tree1 tree : IntervalTree} {n : IntervalTreeNode}
    (h : mergeNode tree1 n = some tree) : tree ≠ .nil := by
  have hne : tree1 ≠ .nil := by
    rintro rfl
    cases h
  rw [mergeNode_eq n hne, Option.some.injEq] at h
  rw [← h, ne_eq, ← Rbtree.toList_eq_nil_iff,
    toList_descend_place _ _ _ fun e _ e' hv => foldNode_descend hv]
  simp

/-- All links of a call are set exactly if there is a tree to merge into, or nothing to merge. -/
theorem guardedM_linkSet_iff {tree1 : IntervalTree} {nodes : List IntervalTreeNode} :
    GuardedM mergeLinked LinkSet (tree1, .unset) nodes ↔ (tree1 = .nil → nodes = []) := by
  have hmore : ∀ (nodes : List IntervalTreeNode) (t : IntervalTree) (p : RbParent), t ≠ .nil →
      GuardedM mergeLinked LinkSet (t, p) nodes := by
    intro nodes
    induction nodes with
    | nil => exact fun _ _ _ => trivial
    | cons n nodes ih =>
      refine fun t p hne => ⟨wellSet_linkOf fun h => absurd h hne, fun s' hs' => ?_⟩
      obtain ⟨tree, htree, rfl⟩ := Option.map_eq_some_iff.1 hs'
      exact ih tree .earlier (mergeNode_ne_nil htree)
  cases nodes with
  | nil => exact iff_of_true trivial fun _ => rfl
  | cons n nodes =>
    constructor
    · rintro ⟨hset, -⟩ hnil
      exact absurd hnil (linkSet_iff.1 hset)
    · intro h
      exact hmore _ _ _ fun hnil => List.cons_ne_nil n nodes (h hnil)

/-- Merging succeeds then, and leaves an empty tree only if both were empty. -/
theorem merge_of_linkSet {tree1 tree2 : IntervalTree} (h : tree1 = .nil → tree2 = .nil) :
    ∃ tree, merge tree1 tree2 = some tree ∧ (tree = .nil ↔ tree1 = .nil ∧ tree2 = .nil) := by
  by_cases hnil : tree1 = .nil
  · obtain rfl := hnil
    obtain rfl := h rfl
    exact ⟨.nil, rfl, by simp⟩
  · suffices hrun : ∀ (nodes : List IntervalTreeNode) (t : IntervalTree), t ≠ .nil →
        ∃ tree, nodes.foldlM mergeNode t = some tree ∧ tree ≠ .nil by
      obtain ⟨tree, hsome, hne⟩ := hrun tree2.toList.reverse tree1 hnil
      exact ⟨tree, hsome, iff_of_false hne fun hboth => hnil hboth.1⟩
    intro nodes
    induction nodes with
    | nil => exact fun t hne => ⟨t, rfl, hne⟩
    | cons n nodes ih =>
      intro t hne
      have hsome := mergeNode_eq n hne
      obtain ⟨tree, hrun, htree⟩ := ih _ (mergeNode_ne_nil hsome)
      exact ⟨tree, by rw [List.foldlM_cons, hsome]; exact hrun, htree⟩

/-! ## The pairing loop -/

/-- All links of the call are set, if it merges. -/
def LinksSet (glpk : Glpk) (s : Analysis) (call : Match ℕ) : Prop :=
  call.last = false → GuardedM mergeLinked LinkSet
    ((overlap glpk (s.trees call.keep) (s.trees call.drop)).1, .unset)
    (s.trees call.drop).toList.reverse

/-- The threads merged into the tree of this one have recorded nothing. -/
def Idle (threads : List (List InsertCall)) (s : Standing ℕ ℕ) (i : ℕ) : Prop :=
  ∀ k ∈ s.team i, threads.getD k [] = []

/-- If all threads of the first tree are idle, so are all those of the second; nothing is
asked of the last match. -/
def BusyFirst (threads : List (List InsertCall)) (s : Standing ℕ ℕ) (call : Match ℕ) : Prop :=
  call.last = false → Idle threads s call.keep → Idle threads s call.drop

instance (threads : List (List InsertCall)) (s : Standing ℕ ℕ) (i : ℕ) :
    Decidable (Idle threads s i) := inferInstanceAs (Decidable (∀ k ∈ _, _))

instance (threads : List (List InsertCall)) (s : Standing ℕ ℕ) (call : Match ℕ) :
    Decidable (BusyFirst threads s call) := inferInstanceAs (Decidable (_ → _ → _))

theorem insertStep_ne_nil (root : IntervalTree) (c : InsertCall) : insertStep root c ≠ .nil := by
  rw [ne_eq, ← Rbtree.toList_eq_nil_iff, toList_insertStep]
  simp

theorem load_eq_nil_iff {calls : List InsertCall} : load calls = .nil ↔ calls = [] := by
  constructor
  · intro h
    rcases List.eq_nil_or_concat calls with rfl | ⟨pre, c, rfl⟩
    · rfl
    · rw [load, List.concat_eq_append, exec_concat] at h
      exact absurd h (insertStep_ne_nil _ c)
  · rintro rfl
    rfl

/-- The trees of idle threads are empty, and no others. -/
def EmptyIfIdle (threads : List (List InsertCall)) (s : Analysis) (t : Standing ℕ ℕ) : Prop :=
  ∀ i, s.trees i = .nil ↔ Idle threads t i

theorem overlap_eq_nil_iff {glpk : Glpk} {tree1 tree2 : IntervalTree} :
    (overlap glpk tree1 tree2).1 = .nil ↔ tree1 = .nil := by
  rw [← Rbtree.toList_eq_nil_iff, toList_overlap, Rbtree.toList_eq_nil_iff]

theorem emptyIfIdle_loaded (threads : List (List InsertCall)) :
    EmptyIfIdle threads (loaded threads) (untouched ℕ) := by
  intro i
  rw [loaded, load_eq_nil_iff]
  simp [Idle, untouched]

theorem linksSet_iff {glpk : Glpk} {threads : List (List InsertCall)} {s : Analysis}
    {t : Standing ℕ ℕ} (h : EmptyIfIdle threads s t) (call : Match ℕ) :
    LinksSet glpk s call ↔ BusyFirst threads t call := by
  rw [LinksSet, BusyFirst, ← h, ← h, guardedM_linkSet_iff, overlap_eq_nil_iff,
    List.reverse_eq_nil_iff, Rbtree.toList_eq_nil_iff]

/-- A call whose links are set does not fail, and the trees of idle threads are the empty ones
again. -/
theorem analyzeTrees_emptyIfIdle {glpk : Glpk} {threads : List (List InsertCall)} {s : Analysis}
    {t : Standing ℕ ℕ} {call : Match ℕ} (hne : call.keep ≠ call.drop)
    (h : EmptyIfIdle threads s t) (hset : LinksSet glpk s call) :
    ∃ s', analyzeTrees glpk s call = some s' ∧ EmptyIfIdle threads s' (t.play call) := by
  rw [linksSet_iff h] at hset
  rw [analyzeTrees]
  dsimp only
  cases hlast : call.last with
  | true =>
    rw [if_pos rfl]
    refine ⟨_, rfl, fun i => ?_⟩
    have hteam : (t.play call).team = t.team := if_pos hlast
    rw [Idle, hteam]
    refine Iff.trans ?_ (h i)
    by_cases hi : i = call.keep
    · rw [hi]
      dsimp only
      rw [Function.update_self, overlap_eq_nil_iff]
    · dsimp only
      rw [Function.update_of_ne hi]
  | false =>
    have hlink : (overlap glpk (s.trees call.keep) (s.trees call.drop)).1 = .nil →
        s.trees call.drop = .nil := fun hkeep =>
      (h call.drop).2 (hset hlast ((h call.keep).1 (overlap_eq_nil_iff.1 hkeep)))
    obtain ⟨tree, hmerge, hnil⟩ := merge_of_linkSet hlink
    rw [if_neg Bool.false_ne_true, hmerge]
    refine ⟨_, rfl, fun i => ?_⟩
    dsimp only
    by_cases hd : i = call.drop
    · rw [hd, Function.update_self]
      refine iff_of_true rfl fun k hk => ?_
      rw [Standing.play, hlast] at hk
      simp at hk
    · rw [Function.update_of_ne hd]
      by_cases hk : i = call.keep
      · rw [hk, Function.update_self, hnil, overlap_eq_nil_iff, h, h, Idle, Idle, Idle,
          Standing.team_play_keep hne hlast]
        simp [or_imp, forall_and]
      · rw [Function.update_of_ne hk, h, Idle, Idle, Standing.team_play_of_ne hlast hk hd]

/-- The players of a match of a knockout are different. -/
theorem ne_of_mem_knockout {live : Finset ℕ} {calls : List (Match ℕ)} (h : Knockout live calls) :
    ∀ call ∈ calls, call.keep ≠ call.drop := by
  induction h with
  | done _ => exact fun call hcall => (List.not_mem_nil hcall).elim
  | final hne _ => exact fun call hcall => List.mem_singleton.1 hcall ▸ hne
  | next _ _ hne _ _ ih =>
    intro call hcall
    rcases List.mem_cons.1 hcall with rfl | hcall
    · exact hne
    · exact ih call hcall

/-- **When every node is linked to a parent that was set**: for any number of threads, any
accesses, and any order of the calls within the rounds, exactly if in no match but the last
all threads merged into the first tree were idle, and not all those merged into the
second. -/
theorem linked_iff (glpk : Glpk) (threads : List (List InsertCall)) (calls : List (Match ℕ))
    (hcalls : Schedule threads.length calls) :
    GuardedM (analyzeTrees glpk) (LinksSet glpk) (loaded threads) calls ↔
      Guarded Standing.play (BusyFirst threads) (untouched ℕ) calls := by
  have hne := ne_of_mem_knockout hcalls.knockout
  exact guardedM_iff_guarded (R := EmptyIfIdle threads)
    (fun _ _ call _ h => @linksSet_iff glpk _ _ _ h call)
    (fun _ _ call hcall h hset =>
      @analyzeTrees_emptyIfIdle glpk _ _ _ call (hne call hcall) h hset)
    (emptyIfIdle_loaded threads)

theorem schedule_three : Schedule 3 threeThreads.flatten := by
  refine ⟨threeThreads, ?_, rfl⟩
  rw [rounds_threeThreads]
  exact List.forall₂_same.2 fun _ _ => List.Perm.refl _

/-- Three threads that have all recorded writes. -/
def busyThreads : List (List InsertCall) :=
  [[write 4096 64], [write 4096 65, write 4100 65], [write 8192 66]]

/-- The tree of the second is merged into that of the first, before the third's is searched. -/
theorem linked_busyThreads : GuardedM (analyzeTrees Glpk.exhaustive) (LinksSet Glpk.exhaustive)
    (loaded busyThreads) threeThreads.flatten :=
  (linked_iff Glpk.exhaustive busyThreads threeThreads.flatten schedule_three).2 (by decide)

/-- Three threads, of which the first has recorded nothing. -/
def idleFirst : List (List InsertCall) := [[], [write 4096 64], [write 4096 65]]

/-- The node of the second thread is linked with a parent that was never set. -/
theorem idleFirst_not_linked :
    ¬ ∀ (threads : List (List InsertCall)) (calls : List (Match ℕ)), 2 ≤ threads.length →
      Schedule threads.length calls →
      GuardedM (analyzeTrees Glpk.exhaustive) (LinksSet Glpk.exhaustive) (loaded threads)
        calls := by
  intro h
  obtain ⟨hset, -⟩ := h idleFirst threeThreads.flatten (by decide) schedule_three
  have hbusy := (linksSet_iff (emptyIfIdle_loaded idleFirst) _).1 hset rfl
  have hidle : Idle idleFirst (untouched ℕ) 0 := by
    intro k hk
    rw [List.mem_singleton.1 hk]
    rfl
  exact absurd (hbusy hidle 1 (List.mem_singleton_self 1)) (by decide)

end Tools
end Sword
