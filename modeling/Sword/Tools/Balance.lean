import Sword.Tools.Rbtree

/-!
# Red-black trees are balanced: `rbtree.c`

The root is black, no red node has a red child, and all paths have the same number of
black nodes.  Insertion keeps this, and erasing the last node relies on it: the loop of
`____rb_erase_color` looks at a sibling without asking whether there is one.

* `Balanced`, `PathBalanced` — balanced trees, and positions in them.
* `balanced_insertColor`, `balanced_descend` — insertion keeps trees balanced.
* `eraseLast` — `rb_erase` of the node that `rb_last` gives.
* `toList_eraseLast`, `balanced_eraseLast` — it removes this node, never follows a
  missing sibling in a balanced tree, and keeps the tree balanced.
-/

namespace Sword
namespace Tools

variable {α β : Type}

/-! ## Balanced trees -/

/-- A tree with a root of this colour and so many black nodes on every path. -/
inductive Rbtree.Balanced : Rbtree α β → Color → ℕ → Prop
  | nil : Balanced .nil .black 0
  | red {l r : Rbtree α β} {e : α} {b : β} {n : ℕ} (hl : Balanced l .black n)
      (hr : Balanced r .black n) : Balanced (.node .red l e b r) .red n
  | black {l r : Rbtree α β} {e : α} {b : β} {cl cr : Color} {n : ℕ} (hl : Balanced l cl n)
      (hr : Balanced r cr n) : Balanced (.node .black l e b r) .black (n + 1)

/-- A red-black tree. -/
def Rbtree.IsRedBlack (t : Rbtree α β) : Prop := ∃ n, t.Balanced .black n

theorem isRedBlack_nil : (Rbtree.nil : Rbtree α β).IsRedBlack := ⟨0, .nil⟩

/-- A position in a red-black tree at which a subtree of this colour and height fits. -/
def PathBalanced : List (Crumb α β) → Color → ℕ → Prop
  | [], c, _ => c = .black
  | k :: path, c, n =>
    match k.color with
    | .red => c = .black ∧ k.sibling.Balanced .black n ∧ PathBalanced path .red n
    | .black => (∃ d, k.sibling.Balanced d n) ∧ PathBalanced path .black (n + 1)

/-- A subtree below a black node. -/
theorem balanced_plug {k : Crumb α β} {t : Rbtree α β} {c d : Color} {n : ℕ}
    (ht : t.Balanced c n) (hs : k.sibling.Balanced d n) (hk : k.color = .black) :
    (k.plug t).Balanced .black (n + 1) := by
  obtain ⟨dir, color, e, b, sibling⟩ := k
  dsimp only at hk
  subst hk
  cases dir with
  | left => exact .black ht hs
  | right => exact .black hs ht

theorem balanced_zip {path : List (Crumb α β)} {t : Rbtree α β} {c : Color} {n : ℕ}
    (hp : PathBalanced path c n) (ht : t.Balanced c n) : (zip path t).IsRedBlack := by
  induction path generalizing t c n with
  | nil =>
    rw [PathBalanced] at hp
    exact ⟨n, hp ▸ ht⟩
  | cons k path ih =>
    obtain ⟨dir, color, e, b, sibling⟩ := k
    rw [zip]
    cases color with
    | red =>
      obtain ⟨rfl, hs, hp⟩ := hp
      cases dir with
      | left => exact ih hp (.red ht hs)
      | right => exact ih hp (.red hs ht)
    | black =>
      obtain ⟨⟨d, hs⟩, hp⟩ := hp
      exact ih hp (balanced_plug ht hs rfl)

/-- A subtree with a red root, blackened. -/
theorem balanced_blacken {t : Rbtree α β} {n : ℕ} (h : t.Balanced .red n) :
    t.blacken.Balanced .black (n + 1) := by
  cases h with
  | red hl hr => exact .black hl hr

theorem balanced_blacken_of_black {t : Rbtree α β} {n : ℕ} (h : t.Balanced .black n) :
    t.blacken.Balanced .black n := by
  cases h with
  | nil => exact .nil
  | black hl hr => exact .black hl hr

theorem isRed_eq {t : Rbtree α β} {c : Color} {n : ℕ} (h : t.Balanced c n) :
    t.isRed = decide (c = .red) := by
  cases h <;> rfl

/-! ## Insertion -/

section Insert

variable (compute : α → Option β → Option β → β)

/-- The rotations at a red parent whose sibling is not red. -/
theorem balanced_rotate {gparent parent : Crumb α β} {node : RedNode α β} {n : ℕ}
    (hg : gparent.color = .black) (hgs : gparent.sibling.Balanced .black n)
    (hps : parent.sibling.Balanced .black n) (hl : node.left.Balanced .black n)
    (hr : node.right.Balanced .black n) :
    (rotate compute gparent parent node).Balanced .black (n + 1) := by
  obtain ⟨gdir, gcolor, ge, ga, gs⟩ := gparent
  obtain ⟨pdir, pcolor, pe, pa, ps⟩ := parent
  obtain ⟨left, e, b, right⟩ := node
  dsimp only at hg hgs hps hl hr
  subst hg
  have hps' := balanced_blacken_of_black hps
  have hl' := balanced_blacken_of_black hl
  have hr' := balanced_blacken_of_black hr
  cases gdir <;> cases pdir
  · exact .black (.red hl hr) (.red hps' hgs)
  · exact .black (.red hps hl') (.red hr' hgs)
  · exact .black (.red hgs hl') (.red hr' hps)
  · exact .black (.red hgs hps') (.red hl hr)

/-- **Rebalancing** a red node at a position for a black one. -/
theorem balanced_insertColor {path : List (Crumb α β)} {node : RedNode α β} {n : ℕ}
    (hp : PathBalanced path .black n) (hl : node.left.Balanced .black n)
    (hr : node.right.Balanced .black n) : (insertColor compute path node).IsRedBlack := by
  have hnode : ∀ {node : RedNode α β} {n : ℕ}, node.left.Balanced .black n →
      node.right.Balanced .black n → node.toTree.Balanced .red n := fun hl hr => .red hl hr
  induction path using List.twoStepInduction generalizing node n with
  | nil => exact ⟨n + 1, balanced_blacken (hnode hl hr)⟩
  | singleton parent =>
    obtain ⟨dir, color, e, b, sibling⟩ := parent
    cases color with
    | red =>
      obtain ⟨-, -, hp⟩ := hp
      exact absurd hp (by rw [PathBalanced]; decide)
    | black =>
      obtain ⟨⟨d, hs⟩, -⟩ := hp
      have htree := balanced_plug (k := ⟨dir, .black, e, b, sibling⟩) (hnode hl hr) hs rfl
      cases dir with
      | left => exact ⟨n + 1, htree⟩
      | right => exact ⟨n + 1, htree⟩
  | cons_cons parent gparent path ih _ =>
    rw [insertColor]
    split
    · rename_i hblack
      refine balanced_zip (c := .red) ?_ (hnode hl hr)
      rw [PathBalanced, hblack] at hp ⊢
      exact hp
    · rename_i hred
      have hpc : parent.color = .red := by
        cases hc : parent.color
        · rfl
        · exact absurd hc hred
      rw [PathBalanced, hpc] at hp
      obtain ⟨-, hps, hp⟩ := hp
      rw [PathBalanced] at hp
      cases hgc : gparent.color with
      | red =>
        rw [hgc] at hp
        exact absurd hp.1 (by decide)
      | black =>
        rw [hgc] at hp
        obtain ⟨⟨d, hgs⟩, hp⟩ := hp
        have hplug := @balanced_plug _ _ { parent with color := .black } _ _ _ _
          (hnode hl hr) hps rfl
        rw [isRed_eq hgs]
        cases d with
        | red =>
          rw [if_pos (by decide)]
          have huncle := balanced_blacken hgs
          obtain ⟨dir, color, e, b, sibling⟩ := gparent
          cases dir with
          | left => exact ih hp hplug huncle
          | right => exact ih hp huncle hplug
        | black =>
          rw [if_neg (by decide)]
          exact balanced_zip hp (balanced_rotate compute hgc hgs hps hl hr)

variable {compute}

/-- **A descent** keeps a tree balanced. -/
theorem balanced_descend {visit : α → Visit α} {goLeft : α → Bool} {pass : β → β} {entry : α}
    {augmented : β} {path : List (Crumb α β)} {t : Rbtree α β} {c : Color} {n : ℕ}
    (hp : PathBalanced path c n) (ht : t.Balanced c n) :
    (descend compute visit goLeft pass entry augmented path t).IsRedBlack := by
  induction ht generalizing path with
  | nil => exact balanced_insertColor compute hp .nil .nil
  | @red l r e b n hl hr ihl ihr =>
    rw [descend]
    cases visit e with
    | stop e' => exact balanced_zip hp (.red hl hr)
    | descend e' =>
      dsimp only
      split
      · exact ihl ⟨rfl, hr, hp⟩
      · exact ihr ⟨rfl, hl, hp⟩
  | @black l r e b cl cr n hl hr ihl ihr =>
    rw [descend]
    cases visit e with
    | stop e' => exact balanced_zip hp (.black hl hr)
    | descend e' =>
      dsimp only
      split
      · exact ihl ⟨⟨_, hr⟩, hp⟩
      · exact ihr ⟨⟨_, hl⟩, hp⟩

end Insert

theorem balanced_walk {goLeft : α → Bool} {pass : β → β} {t : Rbtree α β} {c : Color} {n : ℕ}
    (h : t.Balanced c n) : (t.walk goLeft pass).Balanced c n := by
  induction h with
  | nil => exact .nil
  | red hl hr ihl ihr =>
    rw [Rbtree.walk]
    split
    · exact .red ihl hr
    · exact .red hl ihr
  | black hl hr ihl ihr =>
    rw [Rbtree.walk]
    split
    · exact .black ihl hr
    · exact .black hl ihr

/-! ## Erasing the last node -/

/-- Cases 2 to 4 of `____rb_erase_color` for a right child, with the colour of the
parent and a sibling that is not red; `none` is what a missing sibling leads to.  The flag
says that the loop goes on at the parent. -/
def recolor (color : Color) (sibling : Rbtree α β) (e : α) (b : β) (node : Rbtree α β) :
    Option (Rbtree α β × Bool) :=
  match sibling with
  | .nil => none
  | .node _ sl se sb sr =>
    -- case 4: a rotation at the parent
    if sl.isRed then some (.node color sl.blacken se sb (.node .black sr e b node), false)
    else
      match sr with
      -- case 3: one at the sibling comes first
      | .node .red l' e' b' r' =>
        some (.node color (.node .black sl se sb l'.blacken) e' b' (.node .black r' e b node),
          false)
      -- case 2: the sibling turns red
      | sr => some (.node .black (.node .red sl se sb sr) e b node, color = .black)

/-- A turn of the loop.  Case 1: a red sibling is rotated to the top first. -/
def eraseColor (color : Color) (sibling : Rbtree α β) (e : α) (b : β) (node : Rbtree α β) :
    Option (Rbtree α β × Bool) :=
  match sibling with
  | .node .red sl se sb sr =>
    (recolor .red sr.blacken e b node).map fun r => (.node color sl se sb r.1, r.2)
  | sibling => recolor color sibling e b node

/-- `rb_erase` of the last node, which has no right child.  The flag says that the
subtree has lost a black node, so that the loop goes on at its parent. -/
def Rbtree.eraseLast : Rbtree α β → Option (Rbtree α β × Bool)
  | .nil => none
  | .node c .nil _ _ .nil => some (.nil, c = .black)
  | .node c (.node _ l e b r) _ _ .nil => some (.node c l e b r, false)
  | .node c l e b (.node c' l' e' b' r') =>
    match eraseLast (.node c' l' e' b' r') with
    | none => none
    | some (r, true) => eraseColor c l e b r
    | some (r, false) => some (.node c l e b r, false)

theorem toList_recolor {color : Color} {sibling node t : Rbtree α β} {e : α} {b : β} {short : Bool}
    (h : recolor color sibling e b node = some (t, short)) :
    t.toList = sibling.toList ++ e :: node.toList := by
  unfold recolor at h
  split at h
  · cases h
  · split at h
    · cases h
      simp [Rbtree.toList]
    · split at h
      all_goals
        cases h
        simp [Rbtree.toList]

theorem toList_eraseColor {color : Color} {sibling node t : Rbtree α β} {e : α} {b : β}
    {short : Bool} (h : eraseColor color sibling e b node = some (t, short)) :
    t.toList = sibling.toList ++ e :: node.toList := by
  unfold eraseColor at h
  split at h
  · obtain ⟨⟨s, short'⟩, hrec, hr⟩ := Option.map_eq_some_iff.1 h
    cases hr
    simp [Rbtree.toList, toList_recolor hrec]
  · exact toList_recolor h

/-- Erasing removes the last node. -/
theorem toList_eraseLast {t t' : Rbtree α β} {short : Bool}
    (h : t.eraseLast = some (t', short)) : t'.toList = t.toList.dropLast := by
  have hcons : ∀ (l r : Rbtree α β) (e : α), r.toList ≠ [] →
      (l.toList ++ e :: r.toList).dropLast = l.toList ++ e :: r.toList.dropLast := by
    intro l r e hne
    rw [List.dropLast_append_of_ne_nil (List.cons_ne_nil _ _), List.dropLast_cons_of_ne_nil hne]
  have hne : ∀ (c : Color) (l r : Rbtree α β) (e : α) (b : β),
      (Rbtree.node c l e b r).toList ≠ [] := by
    intro c l r e b h
    exact absurd (congrArg List.length h) (by simp [Rbtree.toList])
  fun_induction Rbtree.eraseLast t generalizing t' short with
  | case1 => cases h
  | case2 =>
    cases h
    rfl
  | case3 c c' l e b r e' b' =>
    cases h
    simp only [Rbtree.toList]
    rw [List.dropLast_concat]
  | case4 => cases h
  | case5 c l e b c' l' e' b' r' r hr ih =>
    rw [toList_eraseColor h, ih hr]
    exact (hcons l _ e (hne c' l' r' e' b')).symm
  | case6 c l e b c' l' e' b' r' r hr ih =>
    cases h
    rw [Rbtree.toList, ih hr]
    exact (hcons l _ e (hne c' l' r' e' b')).symm

/-- A subtree after erasing: as high as before, with a black root if that was black; or,
with a black root, lower by one. -/
def Erased (c : Color) (n : ℕ) (t : Rbtree α β) (short : Bool) : Prop :=
  if short then ∃ m, n = m + 1 ∧ c = .black ∧ t.Balanced .black m
  else ∃ d, (c = .black → d = .black) ∧ t.Balanced d n

/-- Case 2: no child of the sibling is red. -/
theorem recolor_flip {color c : Color} {sl sr node : Rbtree α β} {se e : α} {sb b : β}
    (hl : sl.isRed = false) (hr : sr.isRed = false) :
    recolor color (.node c sl se sb sr) e b node =
      some (.node .black (.node .red sl se sb sr) e b node, decide (color = .black)) := by
  have hne : ¬ sl.isRed = true := by simp [hl]
  refine (if_neg hne).trans ?_
  cases sr with
  | nil => rfl
  | node c l' e' b' r' =>
    cases c with
    | red => cases hr
    | black => rfl

/-- Case 4: the left child of the sibling is red. -/
theorem recolor_rotate {color c : Color} {sl sr node : Rbtree α β} {se e : α} {sb b : β}
    (hl : sl.isRed = true) : recolor color (.node c sl se sb sr) e b node =
      some (.node color sl.blacken se sb (.node .black sr e b node), false) := if_pos hl

theorem balanced_recolor (color : Color) {sibling node : Rbtree α β} (e : α) (b : β) {n : ℕ}
    (hs : sibling.Balanced .black (n + 1)) (hn : node.Balanced .black n) :
    ∃ t short, recolor color sibling e b node = some (t, short) ∧
      (if short then color = .black ∧ t.Balanced .black (n + 1)
        else ∃ d, (color = .black → d = .black) ∧
          t.Balanced d (if color = .black then n + 2 else n + 1)) := by
  cases hs with
  | @black sl sr se sb cl cr _ hl hr =>
    -- a subtree of this colour from children of this height
    have hnode : ∀ {l r : Rbtree α β} {e : α} {b : β}, l.Balanced .black (n + 1) →
        r.Balanced .black (n + 1) → (Rbtree.node color l e b r).Balanced color
          (if color = .black then n + 2 else n + 1) := by
      intro l r e b hl hr
      cases color with
      | red => exact .red hl hr
      | black => exact .black hl hr
    cases cl with
    | red =>
      rw [recolor_rotate (isRed_eq hl)]
      exact ⟨_, _, rfl, color, id, hnode (balanced_blacken hl) (.black hr hn)⟩
    | black =>
      have hblack : sl.isRed = false := isRed_eq hl
      cases cr with
      | red =>
        cases hr with
        | red hl' hr' =>
          rw [recolor, hblack, if_neg Bool.false_ne_true]
          exact ⟨_, _, rfl, color, id,
            hnode (.black hl (balanced_blacken_of_black hl')) (.black hr' hn)⟩
      | black =>
        -- a red parent turns black, a black one has lost a node
        rw [recolor_flip hblack (isRed_eq hr)]
        refine ⟨_, _, rfl, ?_⟩
        cases color with
        | red => exact ⟨.black, fun _ => rfl, .black (.red hl hr) hn⟩
        | black => exact ⟨rfl, .black (.red hl hr) hn⟩

/-- A turn of the loop at a parent whose right subtree has lost a black node. -/
theorem balanced_eraseColor (color : Color) {cs : Color} {sibling node : Rbtree α β} (e : α) (b : β)
    {n : ℕ} (hs : sibling.Balanced cs (n + 1)) (hn : node.Balanced .black n)
    (hc : color = .red → cs = .black) :
    ∃ t short, eraseColor color sibling e b node = some (t, short) ∧
      Erased color (if color = .black then n + 2 else n + 1) t short := by
  cases cs with
  | black =>
    have hrec : eraseColor color sibling e b node = recolor color sibling e b node := by
      cases hs with
      | black => rfl
    obtain ⟨t, short, hsome, ht⟩ := balanced_recolor color e b hs hn
    refine ⟨t, short, hrec.trans hsome, ?_⟩
    rw [Erased]
    split at ht
    all_goals rename_i hshort
    · rw [if_pos hshort, if_pos ht.1]
      exact ⟨n + 1, rfl, ht⟩
    · rw [if_neg hshort]
      exact ht
  | red =>
    -- the parent of a red sibling is black; it turns red, and the loop ends below it
    have hblack : color = .black := by
      cases color with
      | red => exact absurd (hc rfl) (by decide)
      | black => rfl
    subst hblack
    cases hs with
    | @red sl sr se sb _ hl hr =>
      obtain ⟨t, short, hsome, ht⟩ := balanced_recolor .red e b
        (balanced_blacken_of_black hr) hn
      have hlow : short = false := by
        cases short with
        | true => exact absurd ht.1 (by decide)
        | false => rfl
      subst hlow
      obtain ⟨d, -, ht⟩ := ht
      refine ⟨.node .black sl se sb t, false, ?_, .black, id, .black hl ht⟩
      rw [eraseColor, hsome]
      rfl

/-- **Erasing the last node** of a balanced tree never follows a missing sibling, and
leaves a balanced tree. -/
theorem balanced_eraseLast {t : Rbtree α β} {c : Color} {n : ℕ} (h : t.Balanced c n)
    (hne : t ≠ .nil) : ∃ t' short, t.eraseLast = some (t', short) ∧ Erased c n t' short := by
  induction h with
  | nil => exact absurd rfl hne
  | @red l r e b n hl hr _ ihr =>
    cases r with
    | nil =>
      cases hr
      cases hl
      exact ⟨.nil, false, rfl, .black, fun _ => rfl, .nil⟩
    | node c' l' e' b' r' =>
      obtain ⟨t', short, hsome, ht⟩ := ihr (by simp)
      cases short with
      | false =>
        obtain ⟨d, hd, ht⟩ := ht
        refine ⟨.node .red l e b t', false, by rw [Rbtree.eraseLast, hsome], .red, id, ?_⟩
        exact .red hl (hd rfl ▸ ht)
      | true =>
        obtain ⟨m, rfl, -, ht⟩ := ht
        obtain ⟨t'', short, hsome', ht''⟩ := balanced_eraseColor .red e b hl ht
          fun _ => rfl
        exact ⟨t'', short, by rw [Rbtree.eraseLast, hsome]; exact hsome', ht''⟩
  | @black l r e b cl cr n hl hr _ ihr =>
    cases r with
    | nil =>
      cases hr
      cases hl with
      | nil => exact ⟨.nil, true, rfl, 0, rfl, rfl, .nil⟩
      | red hl' hr' => exact ⟨_, false, rfl, .black, id, .black hl' hr'⟩
    | node c' l' e' b' r' =>
      obtain ⟨t', short, hsome, ht⟩ := ihr (by simp)
      cases short with
      | false =>
        obtain ⟨d, hd, ht⟩ := ht
        exact ⟨.node .black l e b t', false, by rw [Rbtree.eraseLast, hsome], .black, id,
          .black hl ht⟩
      | true =>
        obtain ⟨m, rfl, -, ht⟩ := ht
        obtain ⟨t'', short, hsome', ht''⟩ := balanced_eraseColor .black e b hl ht
          fun h => absurd h (by decide)
        exact ⟨t'', short, by rw [Rbtree.eraseLast, hsome]; exact hsome', ht''⟩

theorem isRedBlack_eraseLast {t : Rbtree α β} (h : t.IsRedBlack) (hne : t ≠ .nil) :
    ∃ t' short, t.eraseLast = some (t', short) ∧ t'.IsRedBlack := by
  obtain ⟨n, h⟩ := h
  obtain ⟨t', short, hsome, ht⟩ := balanced_eraseLast h hne
  refine ⟨t', short, hsome, ?_⟩
  cases short with
  | true =>
    obtain ⟨m, -, -, ht⟩ := ht
    exact ⟨m, ht⟩
  | false =>
    obtain ⟨d, hd, ht⟩ := ht
    exact ⟨n, hd rfl ▸ ht⟩

end Tools
end Sword
