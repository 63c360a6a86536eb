import Sword.Tools.Positions

/-!
# Erasing any node: `__rb_erase_augmented` and `____rb_erase_color`

A node with two children is replaced by its successor; where this takes away a black node, the
loop of `____rb_erase_color` climbs from the place until the paths are as long as the others
again.  It looks at siblings without asking whether there are any.

* `Callbacks` — `struct rb_augment_callbacks`; `declared` is what `RB_DECLARE_CALLBACKS` makes,
  `dummy` what `rb_erase` passes.
* `Callbacks.climb` — `propagate`, which ends early where a value stays the same.
* `Callbacks.eraseColor` — the loop; `toList_eraseColor`, `balanced_eraseColor`,
  `annotated_eraseColor` — what it keeps.
* `Callbacks.erase` — `rb_erase_augmented`.
* `toList_erase`, `isRedBlack_erase`, `annotated_erase` — it takes away the node and no
  other, never follows a missing sibling, and keeps trees balanced and annotated.
-/

namespace Sword
namespace Tools

variable {α β : Type}

/-! ## Callbacks -/

/-- `struct rb_augment_callbacks`.  A turn of `propagate` gets the entry of a node, the values of
its children, and its own; it gives the value written, or nothing where the loop ends.
`copy(old, newn)` gets the values of both and gives that of `newn`.  `rotate(old, newn)` gets the
entry of `old`, the values of its children, and the values of both; it gives both. -/
structure Callbacks (α β : Type) where
  propagate : α → Option β → Option β → β → Option β
  copy : β → β → β
  rotate : α → Option β → Option β → β → β → β × β

namespace Callbacks

/-- `RB_DECLARE_CALLBACKS`. -/
def declared [DecidableEq β] (compute : α → Option β → Option β → β) : Callbacks α β where
  propagate e left right b :=
    if b = compute e left right then none else some (compute e left right)
  copy old _ := old
  rotate e left right old _ := (compute e left right, old)

/-- `dummy_callbacks`. -/
def dummy : Callbacks α β where
  propagate _ _ _ _ := none
  copy _ newn := newn
  rotate _ _ _ old newn := (old, newn)

variable (cb : Callbacks α β)

/-- `propagate(node, stop)`: the nodes from `node` up to `stop`, which is not among them, with
the value of the child that is not among them either. -/
def climb : Option β → List (Crumb α β) → List (Crumb α β)
  | _, [] => []
  | a, k :: path =>
    match cb.propagate k.entry (k.dir.pick a k.sibling.augmented?)
        (k.dir.pick k.sibling.augmented? a) k.augmented with
    | none => k :: path
    | some b => { k with augmented := b } :: climb (some b) path

/-! ## Rebalancing -/

/-- A rotation: `newn`, the child of `old` that is not on the side `d`, takes its place and gets it
as a child on this side; `inner` goes from the one to the other. -/
def rotated (d : Dir) (oldColor newColor : Color) (child : Rbtree α β) (old : α) (b : β)
    (inner : Rbtree α β) (newn : α) (b' : β) (outer : Rbtree α β) : Rbtree α β :=
  let v := cb.rotate old (d.pick child inner).augmented? (d.pick inner child).augmented? b b'
  d.node newColor (d.node oldColor child old v.1 inner) newn v.2 outer

/-- Cases 2 to 4 of `____rb_erase_color`: `node` is the child on the side `d` of a parent with the
color `color`, and its sibling is not red.  `none` is what a missing sibling leads to.  The flag
says that the loop goes on at the parent. -/
def recolor (d : Dir) (color : Color) (node : Rbtree α β) (e : α) (b : β) :
    Rbtree α β → Option (Rbtree α β × Bool)
  | .nil => none
  | .node _ sl se sb sr =>
    let near := d.pick sl sr
    let far := d.pick sr sl
    if far.isRed then
      -- case 4: a rotation at the parent
      some (cb.rotated d .black color node e b near se sb far.blacken, false)
    else
      match near with
      | .node .red tl te tb tr =>
        -- case 3: one at the sibling comes first
        let inner := (d.pick tr tl).blacken
        let v := cb.rotate se (d.pick inner far).augmented? (d.pick far inner).augmented? sb tb
        some (cb.rotated d .black color node e b (d.pick tl tr) te v.2
          (d.node .black inner se v.1 far), false)
      -- case 2: the sibling turns red
      | _ => some (d.node .black node e b (.node .red sl se sb sr), color = .black)

/-- A turn of the loop at the parent `k` of `node`.  Case 1: a red sibling is rotated to the top
first, and the parent below it turns red. -/
def eraseTurn (k : Crumb α β) (node : Rbtree α β) : Option (Rbtree α β × Bool) :=
  match k.sibling with
  | .node .red sl se sb sr =>
    let inner := (k.dir.pick sl sr).blacken
    let v := cb.rotate k.entry (k.dir.pick node inner).augmented?
      (k.dir.pick inner node).augmented? k.augmented sb
    (cb.recolor k.dir .red node k.entry v.1 inner).map fun t =>
      (k.dir.node k.color t.1 se v.2 (k.dir.pick sr sl), t.2)
  | sibling => cb.recolor k.dir k.color node k.entry k.augmented sibling

/-- `____rb_erase_color`: `node` has lost a black node. -/
def eraseColor : Rbtree α β → List (Crumb α β) → Option (Rbtree α β)
  | node, [] => some node
  | node, k :: path =>
    match cb.eraseTurn k node with
    | none => none
    | some (t, true) => eraseColor t path
    | some (t, false) => some (zip path t)

/-! ## Erasing -/

/-- The subtree `t` takes the place of a node of this color.  Where nothing does, a black node is
missing, if it was one. -/
def splice (color : Color) (path : List (Crumb α β)) (t : Rbtree α β) : Option (Rbtree α β) :=
  match t with
  | .nil => if color = .black then cb.eraseColor .nil path else some (zip path .nil)
  | t => some (zip path t)

/-- `rb_erase_augmented`. -/
def erase (n : Node α β) : Option (Rbtree α β) :=
  match n.left, n.right with
  -- case 1: no more than one child, which gets the color of the node
  | .nil, child =>
    cb.splice n.color (cb.climb child.augmented? n.path) (child.paint n.color)
  | child, .nil =>
    cb.splice n.color (cb.climb child.augmented? n.path) (child.paint n.color)
  -- cases 2 and 3: the successor, which is leftmost on the right, takes the place of the node
  | left, .node rc rl re rb rr =>
    let successor := Node.most .left rl ⟨[], rc, rl, re, rb, rr⟩
    let child2 := successor.right.paint .black
    let inner := cb.climb child2.augmented? successor.path
    let top : Crumb α β :=
      ⟨.right, n.color, successor.entry, cb.copy n.augmented successor.augmented, left⟩
    cb.splice successor.color (inner ++ cb.climb (zip inner child2).augmented? (top :: n.path))
      child2

/-! ## The walk -/

variable {cb}

@[simp] theorem before_climb (a : Option β) (path : List (Crumb α β)) :
    before (cb.climb a path) = before path := by
  fun_induction climb cb a path with
  | case1 => rfl
  | case2 => rfl
  | case3 a k path b _ ih => rw [before, before, ih]

@[simp] theorem after_climb (a : Option β) (path : List (Crumb α β)) :
    after (cb.climb a path) = after path := by
  fun_induction climb cb a path with
  | case1 => rfl
  | case2 => rfl
  | case3 a k path b _ ih => rw [after, after, ih]

theorem toList_recolor {d : Dir} {color : Color} {node sibling t : Rbtree α β} {e : α} {b : β}
    {short : Bool} (h : cb.recolor d color node e b sibling = some (t, short)) :
    t.toList = (d.node color node e b sibling).toList := by
  cases sibling with
  | nil => cases h
  | node c sl se sb sr =>
    unfold recolor at h
    dsimp only at h
    split at h
    · cases h
      cases d <;> simp [rotated, Dir.node, Dir.pick, Rbtree.toList]
    · split at h
      · rename_i hnear
        cases h
        cases d <;> simp [Dir.pick] at hnear <;>
          simp [hnear, rotated, Dir.node, Dir.pick, Rbtree.toList]
      · cases h
        cases d <;> rfl

theorem toList_eraseTurn {k : Crumb α β} {node t : Rbtree α β} {short : Bool}
    (h : cb.eraseTurn k node = some (t, short)) : t.toList = (k.plug node).toList := by
  obtain ⟨d, color, e, b, sibling⟩ := k
  unfold eraseTurn at h
  dsimp only at h
  split at h
  · obtain ⟨⟨s, short'⟩, hrec, hs⟩ := Option.map_eq_some_iff.1 h
    cases hs
    have hlist := toList_recolor hrec
    cases d <;> simp_all [Crumb.plug, Dir.node, Dir.pick, Rbtree.toList]
  · rw [toList_recolor h]
    cases d <;> rfl

/-- The loop keeps the in-order walk. -/
theorem toList_eraseColor {node t : Rbtree α β} {path : List (Crumb α β)}
    (h : cb.eraseColor node path = some t) :
    t.toList = before path ++ node.toList ++ after path := by
  rw [← toList_zip]
  induction path generalizing node with
  | nil =>
    cases h
    rfl
  | cons k path ih =>
    rw [eraseColor] at h
    rw [zip, toList_zip]
    cases hturn : cb.eraseTurn k node with
    | none =>
      rw [hturn] at h
      cases h
    | some s =>
      obtain ⟨s, short⟩ := s
      rw [hturn] at h
      rw [← toList_eraseTurn hturn, ← toList_zip]
      cases short with
      | true => exact ih h
      | false =>
        cases h
        rfl

theorem toList_splice {color : Color} {path : List (Crumb α β)} {t t' : Rbtree α β}
    (h : cb.splice color path t = some t') :
    t'.toList = before path ++ t.toList ++ after path := by
  unfold splice at h
  split at h
  · split at h
    · exact toList_eraseColor h
    · cases h
      exact toList_zip path .nil
  · cases h
    exact toList_zip path t

/-- **The walk after erasing**: one entry is missing. -/
theorem toList_erase {n : Node α β} {t : Rbtree α β} (h : cb.erase n = some t) :
    t.toList = before n.path ++ (n.left.toList ++ n.right.toList) ++ after n.path := by
  cases hl : n.left with
  | nil =>
    rw [erase, hl] at h
    simpa [Rbtree.toList] using toList_splice h
  | node lc ll le lb lr =>
    cases hr : n.right with
    | nil =>
      rw [erase, hl, hr] at h
      simpa [Rbtree.toList] using toList_splice h
    | node rc rl re rb rr =>
      rw [erase, hl, hr] at h
      have hlist := toList_splice h
      obtain ⟨hleft, hroot, hbefore⟩ := @most_left _ _ rl ⟨[], rc, rl, re, rb, rr⟩ rfl
      generalize Node.most .left rl ⟨[], rc, rl, re, rb, rr⟩ = s at hlist hleft hroot hbefore
      -- the right subtree starts with the successor
      have hright : (Rbtree.node rc rl re rb rr).toList =
          s.entry :: (s.right.toList ++ after s.path) := by
        have hzip := (congrArg Rbtree.toList hroot).symm.trans s.toList_root
        rw [hbefore, hleft, Node.toList_root] at hzip
        simpa [before, after, Rbtree.toList] using hzip
      rw [hright, hlist, before_append, after_append]
      simp [before, after, hbefore]

/-- By its number. -/
theorem toList_erase_eq {n : Node α β} {t : Rbtree α β} (h : cb.erase n = some t) :
    t.toList = n.root.toList.eraseIdx (before n.path ++ n.left.toList).length := by
  have hsplit : n.root.toList = (before n.path ++ n.left.toList) ++
      n.entry :: (n.right.toList ++ after n.path) := by
    rw [n.toList_root]
    simp
  rw [toList_erase h, hsplit, List.eraseIdx_append_of_length_le (Nat.le_refl _), Nat.sub_self]
  simp

/-! ## The balance -/

theorem pathBalanced_climb_append {a : Option β} {inner path path' : List (Crumb α β)}
    (h : ∀ c n, PathBalanced path c n → PathBalanced path' c n) {c : Color} {n : ℕ}
    (hp : PathBalanced (inner ++ path) c n) : PathBalanced (cb.climb a inner ++ path') c n := by
  have hkeep : ∀ (inner : List (Crumb α β)) c n,
      PathBalanced (inner ++ path) c n → PathBalanced (inner ++ path') c n := by
    intro inner
    induction inner with
    | nil => exact h
    | cons k inner ih => exact fun c n => pathBalanced_cons rfl rfl ih
  fun_induction climb cb a inner generalizing c n with
  | case1 => exact h _ _ hp
  | case2 => exact hkeep _ _ _ hp
  | case3 a k inner b _ ih => exact pathBalanced_cons rfl rfl (fun c n => ih) hp

theorem pathBalanced_climb {a : Option β} {path : List (Crumb α β)} {c : Color} {n : ℕ}
    (hp : PathBalanced path c n) : PathBalanced (cb.climb a path) c n := by
  rw [← List.append_nil path] at hp
  simpa using pathBalanced_climb_append  (fun _ _ h => h) hp

/-- A rotation that turns the parent black. -/
theorem balanced_rotated {d : Dir} {color : Color} {child inner outer : Rbtree α β} {old newn : α}
    {b b' : β} {c c' : Color} {n : ℕ} (hc : child.Balanced c n) (hi : inner.Balanced c' n)
    (ho : outer.Balanced .black (n + 1)) :
    (cb.rotated d .black color child old b inner newn b' outer).Balanced color
      (if color = .black then n + 2 else n + 1) := by
  cases color with
  | red => exact balanced_red (balanced_black hc hi) ho
  | black => exact balanced_black (balanced_black hc hi) ho

theorem balanced_recolor {d : Dir} (color : Color) {node sibling : Rbtree α β} (e : α) (b : β)
    {n : ℕ} (hs : sibling.Balanced .black (n + 1)) (hn : node.Balanced .black n) :
    ∃ t short, cb.recolor d color node e b sibling = some (t, short) ∧
      Erased color (if color = .black then n + 2 else n + 1) t short := by
  cases hs with
  | @black sl sr se sb cl cr _ hl hr =>
    obtain ⟨hnear, hfar⟩ := balanced_pick d hl hr
    cases hcf : d.pick cr cl with
    | red =>
      rw [hcf] at hfar
      rw [recolor, if_pos (by rw [isRed_eq hfar, decide_eq_true rfl])]
      exact ⟨_, _, rfl, color, id, balanced_rotated hn hnear (balanced_blacken hfar)⟩
    | black =>
      rw [hcf] at hfar
      rw [recolor, if_neg (by rw [isRed_eq hfar]; decide)]
      cases hcn : d.pick cl cr with
      | red =>
        rw [hcn] at hnear
        cases hnear' : d.pick sl sr with
        | nil =>
          rw [hnear'] at hnear
          cases hnear
        | node c tl te tb tr =>
          rw [hnear'] at hnear
          cases hnear with
          | red htl htr =>
            obtain ⟨hi, ho⟩ := balanced_pick d htl htr
            rw [show d.pick Color.black Color.black = .black by cases d <;> rfl] at hi ho
            exact ⟨_, _, rfl, color, id, balanced_rotated hn hi
              (balanced_black (balanced_blacken_of_black ho) hfar)⟩
      | black =>
        -- a red parent turns black, a black one has lost a node
        obtain ⟨rfl, rfl⟩ : cl = .black ∧ cr = .black := by
          cases d <;> simp_all [Dir.pick]
        have hflip : ∃ t short, some (d.node .black node e b (.node .red sl se sb sr),
            decide (color = .black)) = some (t, short) ∧
              Erased color (if color = .black then n + 2 else n + 1) t short := by
          refine ⟨_, _, rfl, ?_⟩
          have ht := @balanced_black _ _ d _ _ e b _ _ _ hn
            (@Rbtree.Balanced.red _ _ sl sr se sb _ hl hr)
          cases color with
          | red => exact ⟨.black, fun _ => rfl, ht⟩
          | black => exact ⟨n + 1, rfl, rfl, ht⟩
        rw [hcn] at hnear
        cases hnear' : d.pick sl sr with
        | nil => exact hflip
        | node =>
          rw [hnear'] at hnear
          cases hnear with
          | black => exact hflip

/-- A turn of the loop, below a parent whose other child is higher by one. -/
theorem balanced_eraseTurn {k : Crumb α β} {node : Rbtree α β} {c : Color} {n : ℕ}
    (hs : k.sibling.Balanced c (n + 1)) (hc : k.color = .red → c = .black)
    (hn : node.Balanced .black n) : ∃ t short, cb.eraseTurn k node = some (t, short) ∧
      Erased k.color (if k.color = .black then n + 2 else n + 1) t short := by
  obtain ⟨d, color, e, b, sibling⟩ := k
  dsimp only at hs hc ⊢
  cases hs with
  | black hl hr =>
    rw [eraseTurn]
    exact balanced_recolor color e b (.black hl hr) hn
  | @red sl sr se sb _ hl hr =>
    -- the parent of a red sibling is black; it turns red, and the loop ends below it
    have hblack : color = .black := by
      cases color with
      | red => exact absurd (hc rfl) (by decide)
      | black => rfl
    subst hblack
    obtain ⟨hi, ho⟩ := balanced_pick d hl hr
    rw [show d.pick Color.black Color.black = .black by cases d <;> rfl] at hi ho
    rw [eraseTurn]
    dsimp only
    generalize (cb.rotate e _ _ b sb) = v
    obtain ⟨t, short, hsome, ht⟩ := @balanced_recolor _ _ cb d .red _ _ e v.1 _
      (balanced_blacken_of_black hi) hn
    rw [hsome]
    cases short with
    | true =>
      obtain ⟨m, -, hred, -⟩ := ht
      cases hred
    | false =>
      obtain ⟨c, -, ht⟩ := ht
      exact ⟨_, _, rfl, .black, id, balanced_black ht ho⟩

/-- **The loop** of `____rb_erase_color` never follows a missing sibling, and ends with a balanced
tree. -/
theorem balanced_eraseColor {node : Rbtree α β} {path : List (Crumb α β)} {n : ℕ}
    (hp : PathBalanced path .black (n + 1)) (hn : node.Balanced .black n) :
    ∃ t, cb.eraseColor node path = some t ∧ t.IsRedBlack := by
  induction path generalizing node n with
  | nil => exact ⟨node, rfl, n, hn⟩
  | cons k path ih =>
    obtain ⟨c, hs, hc, hp⟩ : ∃ c, k.sibling.Balanced c (n + 1) ∧ (k.color = .red → c = .black) ∧
        PathBalanced path k.color (if k.color = .black then n + 2 else n + 1) := by
      rw [PathBalanced] at hp
      cases hk : k.color with
      | red =>
        rw [hk] at hp
        exact ⟨.black, hp.2.1, fun _ => rfl, hp.2.2⟩
      | black =>
        rw [hk] at hp
        obtain ⟨⟨c, hs⟩, hp⟩ := hp
        exact ⟨c, hs, fun h => absurd h (by decide), hp⟩
    obtain ⟨t, short, hturn, ht⟩ := @balanced_eraseTurn _ _ cb _ _ _ _ hs hc hn
    rw [eraseColor, hturn]
    cases short with
    | true =>
      obtain ⟨m, hm, hblack, ht⟩ := ht
      rw [hm, hblack] at hp
      exact ih hp ht
    | false =>
      obtain ⟨c', hc', ht⟩ := ht
      refine ⟨zip path t, rfl, ?_⟩
      cases hk : k.color with
      | red =>
        rw [hk] at hp ht
        cases c' with
        | red => exact balanced_zip hp ht
        | black => exact balanced_zip (pathBalanced_black hp) ht
      | black =>
        rw [hk] at hp ht
        obtain rfl := hc' hk
        exact balanced_zip hp ht

/-- The other child of such a node takes its place. -/
theorem balanced_splice {d : Dir} {color : Color} {path : List (Crumb α β)} {child : Rbtree α β}
    {e : α} {b : β} {n : ℕ} (hp : PathBalanced path color n)
    (h : (d.node color .nil e b child).Balanced color n) :
    ∃ t, cb.splice color path (child.paint .black) = some t ∧ t.IsRedBlack := by
  rcases only_child h with ⟨rfl, ⟨rfl, rfl⟩ | ⟨rfl, rfl⟩⟩ | ⟨rfl, rfl, hred⟩
  · exact ⟨_, rfl, balanced_zip (pathBalanced_black hp) .nil⟩
  · exact balanced_eraseColor hp .nil
  · cases hred with
    | red hl hr => exact ⟨_, rfl, balanced_zip hp (.black hl hr)⟩

/-- **Erasing any node** of a red-black tree never follows a missing sibling, and leaves a
red-black tree. -/
theorem isRedBlack_erase {n : Node α β} (h : n.root.IsRedBlack) :
    ∃ t, cb.erase n = some t ∧ t.IsRedBlack := by
  obtain ⟨m, h⟩ := h
  obtain ⟨c, k, hp, ht⟩ := balanced_of_zip h
  obtain rfl : c = n.color := color_of_balanced ht
  cases hl : n.left with
  | nil =>
    rw [Node.subtree, hl] at ht
    have hnode : (Dir.left.node n.color .nil n.entry n.augmented n.right).Balanced _ _ := ht
    rw [erase, hl]
    dsimp only
    rw [paint_eq hnode]
    exact balanced_splice (pathBalanced_climb hp) hnode
  | node lc ll le lb lr =>
    cases hr : n.right with
    | nil =>
      rw [Node.subtree, hl, hr] at ht
      have hnode : (Dir.right.node n.color .nil n.entry n.augmented
        (.node lc ll le lb lr)).Balanced _ _ := ht
      rw [erase, hl, hr]
      dsimp only
      rw [paint_eq hnode]
      exact balanced_splice (pathBalanced_climb hp) hnode
    | node rc rl re rb rr =>
      rw [erase, hl, hr]
      dsimp only
      obtain ⟨hleft, hroot, -⟩ := @most_left _ _ rl ⟨[], rc, rl, re, rb, rr⟩ rfl
      generalize Node.most .left rl ⟨[], rc, rl, re, rb, rr⟩ = s at hleft hroot ⊢
      -- the successor, seen from the root
      have hwhole : zip (s.path ++ n.crumb .right :: n.path) s.subtree = n.root := by
        rw [zip_append, show zip s.path s.subtree = s.root from rfl, hroot, Node.root,
          Node.subtree, Node.root, Node.subtree, hr]
        rfl
      rw [← hwhole] at h
      obtain ⟨c, i, hpath, hs⟩ := balanced_of_zip h
      rw [Node.subtree, hleft] at hs
      obtain rfl := color_of_balanced hs
      refine balanced_splice ?_ (show (Dir.left.node s.color .nil s.entry s.augmented
        s.right).Balanced s.color i from hs)
      refine pathBalanced_climb_append (fun c i hp => pathBalanced_climb ?_) hpath
      refine pathBalanced_cons ?_ ?_ (fun _ _ h => h) hp
      · rfl
      · exact hl.symm

/-! ## The values -/

section Values

variable {spec : List α → β → Prop} {compute : α → Option β → Option β → β}

variable [DecidableEq β]

theorem annotated_rotated (hs : Summary spec compute) {d : Dir} {oldColor newColor : Color}
    {child inner outer : Rbtree α β} {old newn : α} {b b' : β} (hc : child.Annotated spec)
    (hi : inner.Annotated spec) (ho : outer.Annotated spec)
    (h : spec ((declared compute).rotated d oldColor newColor child old b inner newn b'
      outer).toList b) :
    ((declared compute).rotated d oldColor newColor child old b inner newn b' outer).Annotated
      spec :=
  annotated_node.2 ⟨annotated_node.2 ⟨hc, spec_compute hs hc hi, hi⟩, h, ho⟩

theorem annotated_recolor (hs : Summary spec compute) {d : Dir} {color : Color}
    {node sibling t : Rbtree α β} {e : α} {b : β} {short : Bool} (hn : node.Annotated spec)
    (hsib : sibling.Annotated spec) (hb : spec (d.node color node e b sibling).toList b)
    (ht : (declared compute).recolor d color node e b sibling = some (t, short)) :
    t.Annotated spec := by
  -- the node on top takes over the value of the parent, and the walk is the same
  rw [← toList_recolor ht] at hb
  cases sibling with
  | nil => cases ht
  | node c sl se sb sr =>
    obtain ⟨hl, hself, hr⟩ := hsib
    have hnear := annotated_pick (d := d) hl hr
    have hfar := annotated_pick (d := d) hr hl
    unfold recolor at ht
    dsimp only at ht
    split at ht
    · cases ht
      exact annotated_rotated hs hn hnear (annotated_blacken.2 hfar) hb
    · split at ht
      · rename_i tl te tb tr heq
        rw [heq] at hnear
        cases ht
        have hinner := annotated_blacken.2 (annotated_pick (d := d) hnear.2.2 hnear.1)
        exact annotated_rotated hs hn (annotated_pick hnear.1 hnear.2.2)
          (annotated_node.2 ⟨hinner, spec_compute hs hinner hfar, hfar⟩) hb
      · cases ht
        exact annotated_node.2 ⟨hn, hb, hl, hself, hr⟩

theorem annotated_eraseTurn (hs : Summary spec compute) {k : Crumb α β} {node t : Rbtree α β}
    {short : Bool} (h : (k.plug node).Annotated spec)
    (ht : (declared compute).eraseTurn k node = some (t, short)) : t.Annotated spec := by
  have hlist := toList_eraseTurn ht
  obtain ⟨d, color, e, b, sibling⟩ := k
  rw [show Crumb.plug ⟨d, color, e, b, sibling⟩ node = d.node color node e b sibling by
    cases d <;> rfl] at h hlist
  obtain ⟨hn, hb, hsib⟩ := annotated_node.1 h
  unfold eraseTurn at ht
  dsimp only at ht
  split at ht
  · rename_i sl se sb sr
    obtain ⟨⟨s, short'⟩, hrec, hts⟩ := Option.map_eq_some_iff.1 ht
    cases hts
    obtain ⟨hl, hself, hr⟩ := hsib
    have hinner := annotated_blacken.2 (annotated_pick (d := d) hl hr)
    refine annotated_node.2 ⟨?_, ?_, annotated_pick hr hl⟩
    · exact annotated_recolor hs hn hinner (spec_compute hs hn hinner) hrec
    · rw [← hlist] at hb
      exact hb
  · exact annotated_recolor hs hn hsib hb ht

/-- **The loop** keeps trees annotated. -/
theorem annotated_eraseColor (hs : Summary spec compute) {node t : Rbtree α β}
    {path : List (Crumb α β)} (h : (zip path node).Annotated spec)
    (ht : (declared compute).eraseColor node path = some t) : t.Annotated spec := by
  induction path generalizing node with
  | nil =>
    cases ht
    exact h
  | cons k path ih =>
    rw [eraseColor] at ht
    cases hturn : (declared compute).eraseTurn k node with
    | none =>
      rw [hturn] at ht
      cases ht
    | some s =>
      obtain ⟨s, short⟩ := s
      rw [hturn] at ht
      have hzip : (zip path s).Annotated spec := annotated_zip_of_toList h
        (annotated_eraseTurn hs (annotated_of_zip h) hturn) (toList_eraseTurn hturn)
      cases short with
      | true => exact ih hzip ht
      | false =>
        cases ht
        exact hzip

theorem annotated_splice (hs : Summary spec compute) {color : Color} {path : List (Crumb α β)}
    {t t' : Rbtree α β} (h : (zip path t).Annotated spec)
    (ht : (declared compute).splice color path t = some t') : t'.Annotated spec := by
  unfold splice at ht
  split at ht
  · split at ht
    · exact annotated_eraseColor hs h ht
    · cases ht
      exact h
  · cases ht
    exact h

theorem climb_declared (k : Crumb α β) (path : List (Crumb α β)) (t : Rbtree α β) :
    (declared compute).climb t.augmented? (k :: path) =
      if k.augmented = computed compute k t then k :: path
      else { k with augmented := computed compute k t } ::
        (declared compute).climb (some (computed compute k t)) path := by
  rw [climb, computed, declared]
  dsimp only
  split <;> rename_i h <;> split at h
  · rw [if_pos ‹_›]
  · cases h
  · cases h
  · cases h
    rw [if_neg ‹_›]

/-- **`propagate`** from a node `k` that has the value of another subtree, for which the node
and the subtree `t` below it now stand. -/
theorem annotated_climb_cons (hs : Summary spec compute) {path : List (Crumb α β)}
    {k : Crumb α β} {s t : Rbtree α β} (h : (zip path s).Annotated spec)
    (hk : s.augmented? = some k.augmented) (hsib : k.sibling.Annotated spec)
    (ht : t.Annotated spec) :
    (zip ((declared compute).climb t.augmented? (k :: path)) t).Annotated spec := by
  induction path generalizing k s t with
  | nil =>
    rw [climb_declared]
    split
    · exact annotated_climb_same hs h hk hsib ht ‹_›
    · exact annotated_computed hs hsib ht
  | cons k' path ih =>
    rw [climb_declared]
    split
    · exact annotated_climb_same hs h hk hsib ht ‹_›
    · have habove : (k'.plug s).Annotated spec := annotated_of_zip h
      have hclimb := @ih k' (k'.plug s) _ h (augmented?_plug k' s) (annotated_sibling habove)
        (annotated_computed hs hsib ht)
      rwa [augmented?_plug] at hclimb

/-- **`propagate`** from where a subtree has been replaced. -/
theorem annotated_climb (hs : Summary spec compute) {path : List (Crumb α β)} {s t : Rbtree α β}
    (h : (zip path s).Annotated spec) (ht : t.Annotated spec) :
    (zip ((declared compute).climb t.augmented? path) t).Annotated spec := by
  cases path with
  | nil => exact ht
  | cons k path =>
    have habove : (k.plug s).Annotated spec := annotated_of_zip h
    exact annotated_climb_cons hs h (augmented?_plug k s) (annotated_sibling habove) ht

/-- **Erasing any node** keeps trees annotated. -/
theorem annotated_erase (hs : Summary spec compute) {n : Node α β} {t : Rbtree α β}
    (h : n.root.Annotated spec) (ht : (declared compute).erase n = some t) :
    t.Annotated spec := by
  have hsub : n.subtree.Annotated spec := annotated_of_zip h
  have hclimb : ∀ {child : Rbtree α β}, child.Annotated spec → (zip ((declared compute).climb
      child.augmented? n.path) (child.paint n.color)).Annotated spec := by
    intro child hc
    have hzip := annotated_climb hs h (annotated_paint.2 hc : (child.paint n.color).Annotated spec)
    rwa [augmented?_paint] at hzip
  cases hl : n.left with
  | nil =>
    rw [erase, hl] at ht
    exact annotated_splice hs (hclimb hsub.2.2) ht
  | node lc ll le lb lr =>
    have hleft := hsub.1
    rw [hl] at hleft
    cases hr : n.right with
    | nil =>
      rw [erase, hl, hr] at ht
      exact annotated_splice hs (hclimb hleft) ht
    | node rc rl re rb rr =>
      rw [erase, hl, hr] at ht
      dsimp only at ht
      have hright := hsub.2.2
      rw [hr] at hright
      obtain ⟨-, hroot, -⟩ := @most_left _ _ rl ⟨[], rc, rl, re, rb, rr⟩ rfl
      generalize Node.most .left rl ⟨[], rc, rl, re, rb, rr⟩ = s at hroot ht
      have hsucc : s.root.Annotated spec := by
        rw [hroot]
        exact hright
      have hinner := annotated_climb hs hsucc
        (annotated_paint.2 (annotated_of_zip hsucc).2.2 : (s.right.paint .black).Annotated spec)
      refine annotated_splice hs ?_ ht
      rw [zip_append]
      exact annotated_climb_cons hs (s := n.subtree) h rfl hleft hinner

end Values

/-! ## Any node -/

/-- **`rb_erase_augmented`** of any node of a red-black tree: it comes to an end, takes away this
node and no other, and leaves a red-black tree; with the callbacks of `RB_DECLARE_CALLBACKS`
every node has the value of its subtree again. -/
theorem erase_spec (cb : Callbacks α β) (n : Node α β) (h : n.root.IsRedBlack) :
    ∃ t, cb.erase n = some t ∧ t.IsRedBlack ∧
      t.toList = n.root.toList.eraseIdx (before n.path ++ n.left.toList).length ∧
      ∀ [DecidableEq β] (spec : List α → β → Prop) (compute : α → Option β → Option β → β),
        cb = declared compute → Summary spec compute → n.root.Annotated spec →
          t.Annotated spec := by
  obtain ⟨t, ht, hbal⟩ := @isRedBlack_erase _ _ cb _ h
  refine ⟨t, ht, hbal, toList_erase_eq ht, ?_⟩
  rintro _ spec compute rfl hs hn
  exact annotated_erase hs hn ht

/-- The root of a tree with three nodes. -/
def threeNodes : Node ℕ ℕ :=
  ⟨[], .black, .node .black .nil 1 1 .nil, 2, 6, .node .black .nil 3 3 .nil⟩

theorem erase_spec_threeNodes : ∃ t, (declared fun e l r => e + l.getD 0 + r.getD 0).erase
    threeNodes = some t ∧ t.IsRedBlack ∧ t.toList = [1, 3] := by
  obtain ⟨t, ht, hbal, hlist, -⟩ := erase_spec (declared fun e l r => e + l.getD 0 + r.getD 0)
    threeNodes ⟨2, .black (.black .nil .nil) (.black .nil .nil)⟩
  exact ⟨t, ht, hbal, hlist⟩

/-! ## The last node -/

theorem recolor_dummy (color : Color) (sibling : Rbtree α β) (e : α) (b : β)
    (node : Rbtree α β) : (dummy : Callbacks α β).recolor .right color node e b sibling =
      Tools.recolor color sibling e b node := by
  cases sibling with
  | nil => rfl
  | node c sl se sb sr =>
    by_cases hl : sl.isRed = true
    · rw [recolor_rotate hl]
      exact if_pos hl
    · refine (if_neg hl).trans (Eq.trans ?_ (if_neg hl).symm)
      cases sr with
      | nil => rfl
      | node c' l' e' b' r' => cases c' <;> rfl

theorem eraseTurn_dummy (color : Color) (sibling : Rbtree α β) (e : α) (b : β)
    (node : Rbtree α β) : (dummy : Callbacks α β).eraseTurn ⟨.right, color, e, b, sibling⟩ node =
      Tools.eraseColor color sibling e b node := by
  cases sibling with
  | nil => rfl
  | node c sl se sb sr =>
    cases c with
    | black => exact recolor_dummy color (.node .black sl se sb sr) e b node
    | red =>
      rw [eraseTurn, Tools.eraseColor]
      dsimp only [Dir.pick]
      rw [recolor_dummy]
      rfl

theorem climb_dummy (a : Option β) (path : List (Crumb α β)) : dummy.climb a path = path := by
  cases path <;> rfl

/-- Erasing the last node below a position. -/
theorem erase_most_right {t : Rbtree α β} {n : Node α β} (h : n.right = t) :
    (dummy : Callbacks α β).erase (n.most .right t) =
      match n.subtree.eraseLast with
      | none => none
      | some (s, true) => dummy.eraseColor s n.path
      | some (s, false) => some (zip n.path s) := by
  induction t generalizing n with
  | nil =>
    obtain ⟨path, color, left, e, b, right⟩ := n
    subst h
    cases left with
    | nil =>
      show dummy.splice color (dummy.climb none path) .nil = _
      rw [climb_dummy]
      cases color <;> rfl
    | node lc ll le lb lr =>
      show dummy.splice color (dummy.climb (some lb) path) (.node color ll le lb lr) = _
      rw [climb_dummy]
      rfl
  | node c l e b r _ ihr =>
    obtain ⟨path, color, left, e', b', right⟩ := n
    subst h
    have hright := @ihr ⟨⟨.right, color, e', b', left⟩ :: path, c, l, e, b, r⟩ rfl
    refine hright.trans ?_
    simp only [Node.subtree, Rbtree.eraseLast]
    cases (Rbtree.node c l e b r).eraseLast with
    | none => rfl
    | some s =>
      obtain ⟨s, short⟩ := s
      cases short with
      | false => rfl
      | true =>
        dsimp only
        rw [eraseColor, eraseTurn_dummy]

/-- **Erasing the last node**, for which merging erases all nodes of a tree, is `rb_erase` of
the node that `rb_last` gives. -/
theorem erase_rbLast (t : Rbtree α β) :
    (rbLast t).bind dummy.erase = t.eraseLast.map Prod.fst := by
  cases t with
  | nil => rfl
  | node c l e b r =>
    refine (@erase_most_right _ _ r ⟨[], c, l, e, b, r⟩ rfl).trans ?_
    simp only [Node.subtree]
    cases (Rbtree.node c l e b r).eraseLast with
    | none => rfl
    | some s =>
      obtain ⟨s, short⟩ := s
      cases short <;> rfl

end Callbacks

end Tools
end Sword
