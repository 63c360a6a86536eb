import Mathlib

/-!
# Augmented red-black trees: `rbtree.c` and `rbtree_augmented.h`

Insertion into a red-black tree whose nodes carry a value computed from their
subtree.  A position in a tree is the list of the nodes above it, nearest first,
so that the loop of `__rb_insert`, which climbs from the new node, is a recursion
over this list.

* `Rbtree`, `Crumb`, `zip` — trees, and positions in them.
* `insertColor` — `__rb_insert`: recolouring and the rotations, each with the
  `augment_rotate` of `RB_DECLARE_CALLBACKS`.
* `descend` — the search for the place of a new node, which looks at every node it
  passes, may change it, and may end there.
* `toList_insertColor` — rebalancing keeps the in-order walk.
* `place`, `toList_descend_place` — which entry a descent changes, or where it adds one.
* `toList_descend` — it changes one entry or adds one, and nothing else.
* `mem_path_iff` — the entries a walk meets: those that every entry above them sends it
  to.
-/

namespace Sword
namespace Tools

/-! ## Trees -/

/-- `RB_RED` and `RB_BLACK`. -/
inductive Color
  | red | black
  deriving DecidableEq, Repr

/-- A tree: `rb_left`, `rb_right`, the colour, the entry, and the augmented value. -/
inductive Rbtree (α β : Type)
  | nil
  | node (color : Color) (left : Rbtree α β) (entry : α) (augmented : β) (right : Rbtree α β)
  deriving DecidableEq, Repr

/-- Which child a node is. -/
inductive Dir
  | left | right
  deriving DecidableEq, Repr

/-- A node on the way down, with the subtree that was not entered. -/
structure Crumb (α β : Type) where
  dir : Dir
  color : Color
  entry : α
  augmented : β
  sibling : Rbtree α β
  deriving DecidableEq, Repr

variable {α β : Type}

namespace Rbtree

/-- The in-order walk: `rb_first`, then `rb_next`. -/
def toList : Rbtree α β → List α
  | .nil => []
  | .node _ l e _ r => l.toList ++ e :: r.toList

/-- The augmented value of a child, if there is one. -/
def augmented? : Rbtree α β → Option β
  | .nil => none
  | .node _ _ _ b _ => some b

/-- `rb_is_red`, of a child that may not be there. -/
def isRed : Rbtree α β → Bool
  | .node .red _ _ _ _ => true
  | _ => false

/-- `rb_set_parent_color(tmp, ..., RB_BLACK)`, of a child that may not be there. -/
def blacken : Rbtree α β → Rbtree α β
  | .nil => .nil
  | .node _ l e b r => .node .black l e b r

@[simp] theorem toList_eq_nil_iff {t : Rbtree α β} : t.toList = [] ↔ t = .nil := by
  cases t <;> simp [toList]

@[simp] theorem toList_blacken (t : Rbtree α β) : t.blacken.toList = t.toList := by
  cases t <;> rfl

@[simp] theorem augmented?_blacken (t : Rbtree α β) : t.blacken.augmented? = t.augmented? := by
  cases t <;> rfl

end Rbtree

/-- The subtree of a node on the way down, with the child that was entered put back. -/
def Crumb.plug (c : Crumb α β) (t : Rbtree α β) : Rbtree α β :=
  match c.dir with
  | .left => .node c.color t c.entry c.augmented c.sibling
  | .right => .node c.color c.sibling c.entry c.augmented t

/-- The whole tree, from a position and the subtree there. -/
def zip : List (Crumb α β) → Rbtree α β → Rbtree α β
  | [], t => t
  | c :: path, t => zip path (c.plug t)

/-- The entries before a position. -/
def before : List (Crumb α β) → List α
  | [] => []
  | c :: path =>
    match c.dir with
    | .left => before path
    | .right => before path ++ (c.sibling.toList ++ [c.entry])

/-- The entries after a position. -/
def after : List (Crumb α β) → List α
  | [] => []
  | c :: path =>
    match c.dir with
    | .left => c.entry :: c.sibling.toList ++ after path
    | .right => after path

theorem toList_zip (path : List (Crumb α β)) (t : Rbtree α β) :
    (zip path t).toList = before path ++ t.toList ++ after path := by
  induction path generalizing t with
  | nil => simp [zip, before, after]
  | cons c path ih =>
    rw [zip, ih]
    obtain ⟨dir, color, entry, augmented, sibling⟩ := c
    cases dir <;> simp [Crumb.plug, before, after, Rbtree.toList]

/-! ## Rebalancing after an insertion -/

/-- The node the loop of `__rb_insert` is at: it is red. -/
structure RedNode (α β : Type) where
  left : Rbtree α β
  entry : α
  augmented : β
  right : Rbtree α β

/-- The subtree of this node. -/
def RedNode.toTree (n : RedNode α β) : Rbtree α β :=
  .node .red n.left n.entry n.augmented n.right

/-- The entries of this subtree. -/
def RedNode.toList (n : RedNode α β) : List α := n.left.toList ++ n.entry :: n.right.toList

/-- A node on the way down, red, with the child that was entered put back. -/
def Crumb.redden (c : Crumb α β) (t : Rbtree α β) : RedNode α β :=
  match c.dir with
  | .left => ⟨t, c.entry, c.augmented, c.sibling⟩
  | .right => ⟨c.sibling, c.entry, c.augmented, t⟩

section Insert

variable (compute : α → Option β → Option β → β)

/-- `augment_rotate(old, newn)` gives the old node the value computed from its
entry and its new children. -/
def recompute (color : Color) (l : Rbtree α β) (e : α) (r : Rbtree α β) : Rbtree α β :=
  .node color l e (compute e l.augmented? r.augmented?) r

/-- Cases 2 and 3 of `__rb_insert`: the parent is red and the uncle is not.  Where
node and parent are children on different sides, a rotation at the parent comes
first; then there is one at the grandparent, whose colour and value its child
takes over. -/
def rotate (gparent parent : Crumb α β) (node : RedNode α β) : Rbtree α β :=
  match gparent.dir with
  | .left =>
    let p : RedNode α β :=
      match parent.dir with
      | .left => parent.redden node.toTree
      | .right =>
        ⟨recompute compute .red parent.sibling parent.entry node.left.blacken, node.entry,
          parent.augmented, node.right⟩
    .node gparent.color p.left p.entry gparent.augmented
      (recompute compute .red p.right.blacken gparent.entry gparent.sibling)
  | .right =>
    let p : RedNode α β :=
      match parent.dir with
      | .right => parent.redden node.toTree
      | .left =>
        ⟨node.left, node.entry, parent.augmented,
          recompute compute .red node.right.blacken parent.entry parent.sibling⟩
    .node gparent.color
      (recompute compute .red gparent.sibling gparent.entry p.left.blacken) p.entry
      gparent.augmented p.right

/-- `__rb_insert`.  A parent without a parent is the root, which is black. -/
def insertColor : List (Crumb α β) → RedNode α β → Rbtree α β
  | [], node => node.toTree.blacken
  | [parent], node => parent.plug node.toTree
  | parent :: gparent :: path, node =>
    if parent.color = .black then zip (parent :: gparent :: path) node.toTree
    else if gparent.sibling.isRed then
      insertColor path (Crumb.redden { gparent with sibling := gparent.sibling.blacken }
        (Crumb.plug { parent with color := .black } node.toTree))
    else zip path (rotate compute gparent parent node)

@[simp] theorem toList_recompute (color : Color) (l : Rbtree α β) (e : α) (r : Rbtree α β) :
    (recompute compute color l e r).toList = l.toList ++ e :: r.toList := rfl

theorem toList_rotate (gparent parent : Crumb α β) (node : RedNode α β) :
    (rotate compute gparent parent node).toList =
      (gparent.plug (parent.plug node.toTree)).toList := by
  obtain ⟨gdir, gcolor, ge, ga, gs⟩ := gparent
  obtain ⟨pdir, pcolor, pe, pa, ps⟩ := parent
  cases gdir <;> cases pdir <;>
    simp [rotate, Crumb.plug, Crumb.redden, RedNode.toTree, Rbtree.toList]

/-- Rebalancing keeps the in-order walk. -/
theorem toList_insertColor (path : List (Crumb α β)) (node : RedNode α β) :
    (insertColor compute path node).toList = before path ++ node.toList ++ after path := by
  induction path using List.twoStepInduction generalizing node with
  | nil => simp [insertColor, before, after, RedNode.toTree, RedNode.toList, Rbtree.toList]
  | singleton parent => exact toList_zip [parent] node.toTree
  | cons_cons parent gparent path ih _ =>
    have hzip := toList_zip (parent :: gparent :: path) node.toTree
    rw [insertColor]
    split
    · exact hzip
    · rw [zip, zip, toList_zip] at hzip
      split
      · rw [ih]
        rw [show node.toList = node.toTree.toList from rfl, ← hzip]
        congr 2
        obtain ⟨gdir, gcolor, ge, ga, gs⟩ := gparent
        obtain ⟨pdir, pcolor, pe, pa, ps⟩ := parent
        cases gdir <;> cases pdir <;> simp [Crumb.redden, Crumb.plug, RedNode.toList, Rbtree.toList]
      · rw [toList_zip, toList_rotate]
        exact hzip

/-! ## The descent -/

/-- What a descent does at a node: it ends there, leaving an entry, or it goes on,
leaving an entry. -/
inductive Visit (α : Type)
  | stop (e : α)
  | descend (e : α)
  deriving DecidableEq, Repr

/-- The descent from the root to a missing child, where a new node is linked
(`rb_link_node`) and the tree rebalanced (`rb_insert_augmented`).  `pass` is what
happens to the augmented values on the way. -/
def descend (visit : α → Visit α) (goLeft : α → Bool) (pass : β → β) (entry : α) (augmented : β) :
    List (Crumb α β) → Rbtree α β → Rbtree α β
  | path, .nil => insertColor compute path ⟨.nil, entry, augmented, .nil⟩
  | path, .node c l e b r =>
    match visit e with
    | .stop e' => zip path (.node c l e' b r)
    | .descend e' =>
      if goLeft e' then
        descend visit goLeft pass entry augmented (⟨.left, c, e', pass b, r⟩ :: path) l
      else descend visit goLeft pass entry augmented (⟨.right, c, e', pass b, l⟩ :: path) r

/-- The entries a descent visits, as it finds them. -/
def Rbtree.visited (visit : α → Visit α) (goLeft : α → Bool) : Rbtree α β → List α
  | .nil => []
  | .node _ l e _ r =>
    match visit e with
    | .stop _ => [e]
    | .descend e' => e :: if goLeft e' then l.visited visit goLeft else r.visited visit goLeft

/-- What a descent makes of the in-order walk: it has changed the entry at which it
ended, or it has added the new one. -/
inductive Descended (visit : α → Visit α) (entry : α) (seen es : List α) : List α → Prop
  | stopped {pre post : List α} {e e' : α} (hes : es = pre ++ e :: post) (hseen : e ∈ seen)
      (hvisit : visit e = .stop e') : Descended visit entry seen es (pre ++ e' :: post)
  | added {pre post : List α} (hes : es = pre ++ post)
      (hvisit : ∀ e ∈ seen, visit e = .descend e) :
      Descended visit entry seen es (pre ++ entry :: post)

/-- What holds of all entries, of the new one, and of what an entry becomes, holds
of all entries afterwards. -/
theorem Descended.all {visit : α → Visit α} {entry : α} {seen es fs : List α} {P : α → Prop}
    (h : Descended visit entry seen es fs) (hes : ∀ e ∈ es, P e) (hentry : P entry)
    (hstop : ∀ e ∈ seen, P e → ∀ e', visit e = .stop e' → P e') : ∀ e ∈ fs, P e := by
  cases h with
  | @stopped pre post e e' hsplit hseen hvisit =>
    intro d hd
    rcases List.mem_append.1 hd with hd | hd
    · exact hes d (hsplit ▸ List.mem_append_left _ hd)
    · rcases List.mem_cons.1 hd with rfl | hd
      · exact hstop e hseen (hes e (hsplit ▸ List.mem_append_right _ List.mem_cons_self)) _ hvisit
      · exact hes d (hsplit ▸ List.mem_append_right _ (List.mem_cons_of_mem _ hd))
  | @added pre post hsplit hvisit =>
    intro d hd
    rcases List.mem_append.1 hd with hd | hd
    · exact hes d (hsplit ▸ List.mem_append_left _ hd)
    · rcases List.mem_cons.1 hd with rfl | hd
      · exact hentry
      · exact hes d (hsplit ▸ List.mem_append_right _ hd)

/-- It is enough to know the new entry where one is added. -/
theorem Descended.entry_eq {visit : α → Visit α} {entry entry' : α} {seen es fs : List α}
    (h : Descended visit entry seen es fs)
    (heq : (∀ e ∈ seen, visit e = .descend e) → entry = entry') :
    Descended visit entry' seen es fs := by
  cases h with
  | stopped hes hseen hvisit => exact .stopped hes hseen hvisit
  | added hes hvisit =>
    rw [heq hvisit]
    exact .added hes hvisit

/-! ## Where a descent ends -/

/-- The place where a descent ends: the entry it stops at, if it does not reach a missing
child, with the entries before the place and after it. -/
structure Place (α : Type) where
  front : List α
  stop : Option α
  behind : List α

/-- The place where a descent ends. -/
def Rbtree.place (visit : α → Visit α) (goLeft : α → Bool) : Rbtree α β → Place α
  | .nil => ⟨[], none, []⟩
  | .node _ l e _ r =>
    match visit e with
    | .stop _ => ⟨l.toList, some e, r.toList⟩
    | .descend e' =>
      if goLeft e' then
        { l.place visit goLeft with behind := (l.place visit goLeft).behind ++ e :: r.toList }
      else { r.place visit goLeft with front := l.toList ++ e :: (r.place visit goLeft).front }

/-- The entry a visit leaves. -/
def Visit.entry : Visit α → α
  | .stop e => e
  | .descend e => e

/-- What is at the place after the descent. -/
def Place.landed (p : Place α) (visit : α → Visit α) (entry : α) : α :=
  match p.stop with
  | some e => (visit e).entry
  | none => entry

theorem toList_eq_place (visit : α → Visit α) (goLeft : α → Bool) (t : Rbtree α β) :
    t.toList = (t.place visit goLeft).front ++
      ((t.place visit goLeft).stop.toList ++ (t.place visit goLeft).behind) := by
  induction t with
  | nil => rfl
  | node c l e b r ihl ihr =>
    rw [Rbtree.place]
    split
    · simp [Rbtree.toList]
    · split
      · rw [Rbtree.toList]
        nth_rewrite 1 [ihl]
        simp
      · rw [Rbtree.toList]
        nth_rewrite 1 [ihr]
        simp

/-- **A descent** that leaves the entries it passes alone changes the entry it stops at, or
puts the new one at the place where it ends. -/
theorem toList_descend_place {visit : α → Visit α} {goLeft : α → Bool} {pass : β → β}
    {entry : α} {augmented : β} (t : Rbtree α β) (path : List (Crumb α β))
    (h : ∀ e ∈ t.visited visit goLeft, ∀ e', visit e = .descend e' → e' = e) :
    (descend compute visit goLeft pass entry augmented path t).toList =
      before path ++ ((t.place visit goLeft).front ++
        (t.place visit goLeft).landed visit entry :: (t.place visit goLeft).behind) ++
          after path := by
  induction t generalizing path with
  | nil =>
    rw [descend, toList_insertColor]
    rfl
  | node c l e b r ihl ihr =>
    cases hv : visit e with
    | stop e' =>
      have hplace : Rbtree.place visit goLeft (.node c l e b r) =
          ⟨l.toList, some e, r.toList⟩ := by
        rw [Rbtree.place, hv]
      simp [descend, hv, toList_zip, Rbtree.toList, hplace, Place.landed, Visit.entry]
    | descend e' =>
      have hseen : Rbtree.visited visit goLeft (.node c l e b r) =
          e :: if goLeft e' then l.visited visit goLeft else r.visited visit goLeft := by
        simp [Rbtree.visited, hv]
      rw [hseen] at h
      obtain rfl := h e List.mem_cons_self e' hv
      rw [descend, hv, Rbtree.place, hv]
      dsimp only
      split at h
      all_goals rename_i hgo
      · rw [if_pos hgo, if_pos hgo, ihl _ fun d hd => h d (List.mem_cons_of_mem _ hd)]
        simp [before, after, Place.landed]
      · rw [if_neg hgo, if_neg hgo, ihr _ fun d hd => h d (List.mem_cons_of_mem _ hd)]
        simp [before, after, Place.landed]

/-- The descent has looked at the entry it stops at. -/
theorem mem_visited_of_stop {visit : α → Visit α} {goLeft : α → Bool} {t : Rbtree α β} {e : α}
    (h : (t.place visit goLeft).stop = some e) :
    e ∈ t.visited visit goLeft ∧ visit e = .stop (visit e).entry := by
  induction t with
  | nil => exact absurd h (by simp [Rbtree.place])
  | node c l d b r ihl ihr =>
    rw [Rbtree.place] at h
    rw [Rbtree.visited]
    cases hv : visit d with
    | stop d' =>
      rw [hv] at h
      cases h
      rw [hv]
      exact ⟨List.mem_singleton.2 rfl, rfl⟩
    | descend d' =>
      rw [hv] at h
      dsimp only at h ⊢
      split at h
      all_goals rename_i hgo
      · rw [if_pos hgo]
        exact ⟨List.mem_cons_of_mem _ (ihl h).1, (ihl h).2⟩
      · rw [if_neg hgo]
        exact ⟨List.mem_cons_of_mem _ (ihr h).1, (ihr h).2⟩

/-- There is no other entry it could have stopped at. -/
theorem eq_of_stop {visit : α → Visit α} {goLeft : α → Bool} {t : Rbtree α β} {e e' : α}
    (h : e ∈ t.visited visit goLeft) (hstop : visit e = .stop e') :
    (t.place visit goLeft).stop = some e := by
  induction t with
  | nil => exact (List.not_mem_nil h).elim
  | node c l d b r ihl ihr =>
    rw [Rbtree.visited] at h
    rw [Rbtree.place]
    cases hv : visit d with
    | stop d' =>
      rw [hv] at h
      rw [List.mem_singleton.1 h]
    | descend d' =>
      rw [hv] at h
      dsimp only at h ⊢
      rcases List.mem_cons.1 h with rfl | h
      · rw [hv] at hstop
        cases hstop
      · split at h
        · rename_i hgo
          rw [if_pos hgo]
          exact ihl h
        · rename_i hgo
          rw [if_neg hgo]
          exact ihr h

/-- A descent that reaches a missing child has passed every entry it has looked at. -/
theorem descend_of_stop_eq_none {visit : α → Visit α} {goLeft : α → Bool} {t : Rbtree α β}
    (h : ∀ e ∈ t.visited visit goLeft, ∀ e', visit e = .descend e' → e' = e)
    (hnone : (t.place visit goLeft).stop = none) :
    ∀ e ∈ t.visited visit goLeft, visit e = .descend e := by
  intro e he
  cases hv : visit e with
  | stop e' =>
    rw [eq_of_stop he hv] at hnone
    cases hnone
  | descend e' => rw [h e he e' hv]

/-- **A descent** that leaves the entries it passes alone changes one entry, or
adds one. -/
theorem toList_descend {visit : α → Visit α} {goLeft : α → Bool} {pass : β → β} {entry : α}
    {augmented : β} (t : Rbtree α β) (path : List (Crumb α β))
    (h : ∀ e ∈ t.visited visit goLeft, ∀ e', visit e = .descend e' → e' = e) :
    ∃ es, Descended visit entry (t.visited visit goLeft) t.toList es ∧
      (descend compute visit goLeft pass entry augmented path t).toList =
        before path ++ es ++ after path := by
  refine ⟨_, ?_, toList_descend_place compute t path h⟩
  have hlist := toList_eq_place visit goLeft t
  cases hs : (t.place visit goLeft).stop with
  | some e =>
    obtain ⟨hseen, hv⟩ := mem_visited_of_stop hs
    rw [hs] at hlist
    rw [Place.landed, hs]
    exact .stopped hlist hseen hv
  | none =>
    rw [hs] at hlist
    rw [Place.landed, hs]
    exact .added hlist (descend_of_stop_eq_none h hs)

/-- In a tree whose walk is in order, a descent that ends at a missing child has the
entries it would go left at behind this place, and the others in front of it. -/
theorem place_bounds {κ : Type} [LinearOrder κ] {f : α → κ} {a : κ} {visit : α → Visit α}
    {goLeft : α → Bool} (hgo : ∀ e, goLeft e = decide (a < f e)) {t : Rbtree α β}
    (h : ∀ e ∈ t.visited visit goLeft, ∀ e', visit e = .descend e' → e' = e)
    (hsorted : t.toList.Pairwise fun d e => f d ≤ f e)
    (hnone : (t.place visit goLeft).stop = none) :
    (∀ e ∈ (t.place visit goLeft).front, f e ≤ a) ∧
      ∀ e ∈ (t.place visit goLeft).behind, a ≤ f e := by
  induction t with
  | nil => exact ⟨fun e he => (List.not_mem_nil he).elim, fun e he => (List.not_mem_nil he).elim⟩
  | node c l d b r ihl ihr =>
    rw [Rbtree.visited] at h
    rw [Rbtree.place] at hnone ⊢
    rw [Rbtree.toList, List.pairwise_append, List.pairwise_cons] at hsorted
    obtain ⟨hl, ⟨hr, hsr⟩, hlr⟩ := hsorted
    cases hv : visit d with
    | stop d' =>
      rw [hv] at hnone
      cases hnone
    | descend d' =>
      rw [hv] at hnone h
      dsimp only at hnone h ⊢
      obtain rfl := h d List.mem_cons_self d' hv
      split at hnone
      all_goals rename_i hleft
      · rw [if_pos hleft] at h ⊢
        rw [hgo, decide_eq_true_iff] at hleft
        obtain ⟨hfront, hbehind⟩ := ihl (fun e he => h e (List.mem_cons_of_mem _ he)) hl hnone
        refine ⟨hfront, fun e he => ?_⟩
        rcases List.mem_append.1 he with he | he
        · exact hbehind e he
        · rcases List.mem_cons.1 he with rfl | he
          · exact hleft.le
          · exact hleft.le.trans (hr e he)
      · rw [if_neg hleft] at h ⊢
        rw [hgo, decide_eq_true_iff, not_lt] at hleft
        obtain ⟨hfront, hbehind⟩ := ihr (fun e he => h e (List.mem_cons_of_mem _ he)) hsr hnone
        refine ⟨fun e he => ?_, hbehind⟩
        rcases List.mem_append.1 he with he | he
        · exact (hlr e he d' List.mem_cons_self).trans hleft
        · rcases List.mem_cons.1 he with rfl | he
          · exact hleft
          · exact hfront e he

end Insert

/-! ## Walking down without inserting -/

/-- The values along a walk, changed on the way. -/
def Rbtree.walk (goLeft : α → Bool) (pass : β → β) : Rbtree α β → Rbtree α β
  | .nil => .nil
  | .node c l e b r =>
    if goLeft e then .node c (l.walk goLeft pass) e (pass b) r
    else .node c l e (pass b) (r.walk goLeft pass)

/-- The entries along a walk. -/
def Rbtree.path (goLeft : α → Bool) : Rbtree α β → List α
  | .nil => []
  | .node _ l e _ r => e :: if goLeft e then l.path goLeft else r.path goLeft

@[simp] theorem toList_walk (goLeft : α → Bool) (pass : β → β) (t : Rbtree α β) :
    (t.walk goLeft pass).toList = t.toList := by
  induction t with
  | nil => rfl
  | node c l e b r ihl ihr => rw [Rbtree.walk]; split <;> simp [Rbtree.toList, ihl, ihr]

@[simp] theorem path_walk (goLeft goLeft' : α → Bool) (pass : β → β) (t : Rbtree α β) :
    (t.walk goLeft pass).path goLeft' = t.path goLeft' := by
  induction t with
  | nil => rfl
  | node c l e b r ihl ihr => rw [Rbtree.walk]; split <;> simp [Rbtree.path, ihl, ihr]

theorem mem_toList_of_mem_path {goLeft : α → Bool} {t : Rbtree α β} {e : α}
    (h : e ∈ t.path goLeft) : e ∈ t.toList := by
  induction t with
  | nil => exact h
  | node c l d b r ihl ihr =>
    rw [Rbtree.path] at h
    rw [Rbtree.toList, List.mem_append, List.mem_cons]
    split at h
    · rcases List.mem_cons.1 h with rfl | h
      · exact Or.inr (Or.inl rfl)
      · exact Or.inl (ihl h)
    · rcases List.mem_cons.1 h with rfl | h
      · exact Or.inr (Or.inl rfl)
      · exact Or.inr (Or.inr (ihr h))

/-- The entries along a walk are those at a position to which every entry above it sends
the walk. -/
theorem mem_path_iff {goLeft : α → Bool} {t : Rbtree α β} {e : α} :
    e ∈ t.path goLeft ↔ ∃ (above : List (Crumb α β)) (c : Color) (l : Rbtree α β) (b : β)
      (r : Rbtree α β), zip above (.node c l e b r) = t ∧
        ∀ k ∈ above, goLeft k.entry = decide (k.dir = .left) := by
  have hzip : ∀ (above : List (Crumb α β)) (t : Rbtree α β),
      (∀ k ∈ above, goLeft k.entry = decide (k.dir = .left)) → e ∈ t.path goLeft →
        e ∈ (zip above t).path goLeft := by
    intro above
    induction above with
    | nil => exact fun t _ h => h
    | cons k above ih =>
      intro t hdir h
      refine ih _ (fun k' hk' => hdir k' (List.mem_cons_of_mem _ hk')) ?_
      have hk := hdir k List.mem_cons_self
      obtain ⟨dir, color, entry, augmented, sibling⟩ := k
      cases dir <;> simp_all [Crumb.plug, Rbtree.path]
  constructor
  · intro h
    suffices hpos : ∀ (above : List (Crumb α β)) (s : Rbtree α β), zip above s = t →
        (∀ k ∈ above, goLeft k.entry = decide (k.dir = .left)) → e ∈ s.path goLeft →
        ∃ (above : List (Crumb α β)) (c : Color) (l : Rbtree α β) (b : β) (r : Rbtree α β),
          zip above (.node c l e b r) = t ∧
            ∀ k ∈ above, goLeft k.entry = decide (k.dir = .left) from
      hpos [] t rfl (fun k hk => (List.not_mem_nil hk).elim) h
    intro above s
    induction s generalizing above with
    | nil => exact fun _ _ h => (List.not_mem_nil h).elim
    | node c l d b r ihl ihr =>
      intro hs hdir h
      rw [Rbtree.path] at h
      rcases List.mem_cons.1 h with rfl | h
      · exact ⟨above, c, l, b, r, hs, hdir⟩
      · split at h
        · rename_i hgo
          refine ihl (⟨.left, c, d, b, r⟩ :: above) hs ?_ h
          intro k hk
          rcases List.mem_cons.1 hk with rfl | hk
          · simpa using hgo
          · exact hdir k hk
        · rename_i hgo
          refine ihr (⟨.right, c, d, b, l⟩ :: above) hs ?_ h
          intro k hk
          rcases List.mem_cons.1 hk with rfl | hk
          · simpa using hgo
          · exact hdir k hk
  · rintro ⟨above, c, l, b, r, rfl, hdir⟩
    exact hzip above _ hdir (by rw [Rbtree.path]; exact List.mem_cons_self)

end Tools
end Sword
