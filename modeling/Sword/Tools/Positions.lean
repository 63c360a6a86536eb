import Sword.Tools.Augmented
import Sword.Tools.Balance
import Sword.Tools.Nodes

/-!
# Positions in trees

What holds of a tree, seen from a position in it: of the subtree there, and of the nodes above
it with what hangs on their other sides.

* `zip_append`, `before_append`, `after_append` — a position below a position.
* `most_left` — the leftmost node of a subtree.
* `balanced_of_zip`, `pathBalanced_cons` — balanced trees.
* `balanced_cases`, `only_child` — the children of a balanced node, whichever side they are on.
* `annotated_node`, `annotated_computed` — the values of nodes, and of a node computed anew.
* `annotated_climb_same` — where a value stays the same, those above it stay right.
-/

namespace Sword
namespace Tools

variable {α β : Type}

/-- A subtree with a root of this color. -/
def Rbtree.paint (color : Color) : Rbtree α β → Rbtree α β
  | .nil => .nil
  | .node _ l e b r => .node color l e b r

@[simp] theorem toList_paint (color : Color) (t : Rbtree α β) :
    (t.paint color).toList = t.toList := by
  cases t <;> rfl

@[simp] theorem augmented?_paint (color : Color) (t : Rbtree α β) :
    (t.paint color).augmented? = t.augmented? := by
  cases t <;> rfl

theorem zip_append (inner path : List (Crumb α β)) (t : Rbtree α β) :
    zip (inner ++ path) t = zip path (zip inner t) := by
  induction inner generalizing t with
  | nil => rfl
  | cons k inner ih => exact ih _

theorem before_append (inner path : List (Crumb α β)) :
    before (inner ++ path) = before path ++ before inner := by
  induction inner with
  | nil => simp [before]
  | cons k inner ih =>
    obtain ⟨d, color, e, b, sibling⟩ := k
    cases d <;> simp [before, ih]

theorem after_append (inner path : List (Crumb α β)) :
    after (inner ++ path) = after inner ++ after path := by
  induction inner with
  | nil => simp [after]
  | cons k inner ih =>
    obtain ⟨d, color, e, b, sibling⟩ := k
    cases d <;> simp [after, ih]

/-- The leftmost node of a tree has nothing in front of it. -/
theorem most_left {t : Rbtree α β} {n : Node α β} (h : n.left = t) :
    (n.most .left t).left = .nil ∧ (n.most .left t).root = n.root ∧
      before (n.most .left t).path = before n.path := by
  induction t generalizing n with
  | nil => exact ⟨h, rfl, rfl⟩
  | node c l e b r ihl =>
    obtain ⟨hleft, hroot, hbefore⟩ := @ihl ⟨n.crumb .left :: n.path, c, l, e, b, r⟩ rfl
    refine ⟨hleft, hroot.trans ?_, hbefore⟩
    rw [Node.root, Node.root, Node.subtree, Node.subtree, h]
    rfl

/-! ## Balanced trees -/

/-- A balanced tree, seen from a position in it. -/
theorem balanced_of_zip {path : List (Crumb α β)} {t : Rbtree α β} {n : ℕ}
    (h : (zip path t).Balanced .black n) : ∃ c m, PathBalanced path c m ∧ t.Balanced c m := by
  induction path generalizing t with
  | nil => exact ⟨.black, n, rfl, h⟩
  | cons k path ih =>
    obtain ⟨c, m, hp, ht⟩ := ih h
    obtain ⟨d, color, e, b, sibling⟩ := k
    cases d <;> cases ht with
    | red hl hr => exact ⟨.black, m, by first | exact ⟨rfl, hr, hp⟩ | exact ⟨rfl, hl, hp⟩, ‹_›⟩
    | black hl hr => exact ⟨_, _, by first | exact ⟨⟨_, hr⟩, hp⟩ | exact ⟨⟨_, hl⟩, hp⟩, ‹_›⟩

/-- Where a red subtree fits, a black one does. -/
theorem pathBalanced_black {path : List (Crumb α β)} {c : Color} {n : ℕ}
    (h : PathBalanced path c n) : PathBalanced path .black n := by
  cases path with
  | nil => rfl
  | cons k path =>
    rw [PathBalanced] at h ⊢
    cases hk : k.color with
    | red =>
      rw [hk] at h
      exact ⟨rfl, h.2⟩
    | black =>
      rw [hk] at h
      exact h

/-- The balance of a position depends on colors and siblings only. -/
theorem pathBalanced_cons {k k' : Crumb α β} {path path' : List (Crumb α β)}
    (hcolor : k'.color = k.color) (hs : k'.sibling = k.sibling)
    (h : ∀ c n, PathBalanced path c n → PathBalanced path' c n) {c : Color} {n : ℕ}
    (hp : PathBalanced (k :: path) c n) : PathBalanced (k' :: path') c n := by
  rw [PathBalanced] at hp ⊢
  rw [hcolor, hs]
  cases hk : k.color with
  | red =>
    rw [hk] at hp
    exact ⟨hp.1, hp.2.1, h _ _ hp.2.2⟩
  | black =>
    rw [hk] at hp
    exact ⟨hp.1, h _ _ hp.2⟩

theorem balanced_red {d : Dir} {child other : Rbtree α β} {e : α} {b : β} {n : ℕ}
    (hc : child.Balanced .black n) (ho : other.Balanced .black n) :
    (d.node .red child e b other).Balanced .red n := by
  cases d with
  | left => exact .red hc ho
  | right => exact .red ho hc

theorem balanced_black {d : Dir} {child other : Rbtree α β} {e : α} {b : β} {c c' : Color} {n : ℕ}
    (hc : child.Balanced c n) (ho : other.Balanced c' n) :
    (d.node .black child e b other).Balanced .black (n + 1) := by
  cases d with
  | left => exact .black hc ho
  | right => exact .black ho hc

theorem color_of_balanced {color c : Color} {l r : Rbtree α β} {e : α} {b : β} {n : ℕ}
    (h : (Rbtree.node color l e b r).Balanced c n) : c = color := by
  cases h <;> rfl

/-- The children of a balanced node. -/
theorem balanced_cases {d : Dir} {color c : Color} {child other : Rbtree α β} {e : α} {b : β}
    {n : ℕ} (h : (d.node color child e b other).Balanced c n) :
    color = .red ∧ child.Balanced .black n ∧ other.Balanced .black n ∨
      color = .black ∧ ∃ m c₁ c₂, n = m + 1 ∧ child.Balanced c₁ m ∧ other.Balanced c₂ m := by
  have hnode : ∀ {l r : Rbtree α β}, (Rbtree.node color l e b r).Balanced c n →
      color = .red ∧ l.Balanced .black n ∧ r.Balanced .black n ∨
        color = .black ∧ ∃ m c₁ c₂, n = m + 1 ∧ l.Balanced c₁ m ∧ r.Balanced c₂ m := by
    intro l r h
    cases h with
    | red hl hr => exact Or.inl ⟨rfl, hl, hr⟩
    | black hl hr => exact Or.inr ⟨rfl, _, _, _, rfl, hl, hr⟩
  cases d with
  | left => exact hnode h
  | right =>
    rcases hnode h with ⟨hcolor, hl, hr⟩ | ⟨hcolor, m, c₁, c₂, hm, hl, hr⟩
    · exact Or.inl ⟨hcolor, hr, hl⟩
    · exact Or.inr ⟨hcolor, m, c₂, c₁, hm, hr, hl⟩

/-- The two children of a balanced black node. -/
theorem balanced_pick {sl sr : Rbtree α β} {c c' : Color} {n : ℕ} (d : Dir)
    (hl : sl.Balanced c n) (hr : sr.Balanced c' n) :
    (d.pick sl sr).Balanced (d.pick c c') n ∧ (d.pick sr sl).Balanced (d.pick c' c) n := by
  cases d with
  | left => exact ⟨hl, hr⟩
  | right => exact ⟨hr, hl⟩

/-- A node that has no child on the side `d`: the other child is missing as well, or red. -/
theorem only_child {d : Dir} {color : Color} {child : Rbtree α β} {e : α} {b : β} {n : ℕ}
    (h : (d.node color .nil e b child).Balanced color n) :
    child = .nil ∧ (color = .red ∧ n = 0 ∨ color = .black ∧ n = 1) ∨
      color = .black ∧ n = 1 ∧ child.Balanced .red 0 := by
  rcases balanced_cases h with ⟨rfl, hn, hc⟩ | ⟨rfl, m, c, c', rfl, hn, hc⟩
  · cases hn
    cases hc
    exact Or.inl ⟨rfl, Or.inl ⟨rfl, rfl⟩⟩
  · cases hn
    cases hc with
    | nil => exact Or.inl ⟨rfl, Or.inr ⟨rfl, rfl⟩⟩
    | red hl hr => exact Or.inr ⟨rfl, rfl, .red hl hr⟩

/-- A child that takes the place of a node with one child gets a black node's color. -/
theorem paint_eq {d : Dir} {color : Color} {child : Rbtree α β} {e : α} {b : β} {n : ℕ}
    (h : (d.node color .nil e b child).Balanced color n) :
    child.paint color = child.paint .black := by
  rcases only_child h with ⟨rfl, -⟩ | ⟨rfl, -, -⟩ <;> rfl

/-! ## Values -/

section Values

variable {spec : List α → β → Prop} {compute : α → Option β → Option β → β}

@[simp] theorem annotated_paint {color : Color} {t : Rbtree α β} :
    (t.paint color).Annotated spec ↔ t.Annotated spec := by
  cases t <;> rfl

theorem annotated_node {d : Dir} {color : Color} {child other : Rbtree α β} {e : α} {b : β} :
    (d.node color child e b other).Annotated spec ↔ child.Annotated spec ∧
      spec (d.node color child e b other).toList b ∧ other.Annotated spec := by
  cases d with
  | left => rfl
  | right => exact ⟨fun h => ⟨h.2.2, h.2.1, h.1⟩, fun h => ⟨h.2.2, h.2.1, h.1⟩⟩

/-- A node whose value has been computed from its children. -/
theorem spec_compute (hs : Summary spec compute) {d : Dir} {color : Color}
    {child other : Rbtree α β} {e : α} {b : β} (hc : child.Annotated spec)
    (ho : other.Annotated spec) : spec (d.node color child e b other).toList
      (compute e (d.pick child other).augmented? (d.pick other child).augmented?) := by
  cases d with
  | left => exact hs.compute_spec (summed_augmented? hc) (summed_augmented? ho)
  | right => exact hs.compute_spec (summed_augmented? ho) (summed_augmented? hc)

theorem annotated_pick {d : Dir} {l r : Rbtree α β} (hl : l.Annotated spec)
    (hr : r.Annotated spec) : (d.pick l r).Annotated spec := by
  cases d with
  | left => exact hl
  | right => exact hr

theorem augmented?_plug (k : Crumb α β) (t : Rbtree α β) :
    (k.plug t).augmented? = some k.augmented := by
  obtain ⟨d, color, e, b, sibling⟩ := k
  cases d <;> rfl

theorem annotated_sibling {k : Crumb α β} {t : Rbtree α β} (h : (k.plug t).Annotated spec) :
    k.sibling.Annotated spec := by
  obtain ⟨d, color, e, b, sibling⟩ := k
  cases d with
  | left => exact h.2.2
  | right => exact h.1

/-- The value computed for a node with the child `t` put back. -/
def computed (compute : α → Option β → Option β → β) (k : Crumb α β) (t : Rbtree α β) : β :=
  compute k.entry (k.dir.pick t.augmented? k.sibling.augmented?)
    (k.dir.pick k.sibling.augmented? t.augmented?)

theorem annotated_computed (hs : Summary spec compute) {k : Crumb α β} {t : Rbtree α β}
    (hsib : k.sibling.Annotated spec) (ht : t.Annotated spec) :
    (Crumb.plug { k with augmented := computed compute k t } t).Annotated spec := by
  have hspec := @spec_compute _ _ _ _ hs k.dir k.color _ _ k.entry (computed compute k t) ht hsib
  obtain ⟨d, color, e, b, sibling⟩ := k
  cases d with
  | left => exact ⟨ht, hspec, hsib⟩
  | right => exact ⟨hsib, hspec, ht⟩

/-- From where a value stays the same on, the ones above stay right. -/
theorem annotated_climb_same (hs : Summary spec compute) {path : List (Crumb α β)}
    {k : Crumb α β} {s t : Rbtree α β} (h : (zip path s).Annotated spec)
    (hk : s.augmented? = some k.augmented) (hsib : k.sibling.Annotated spec)
    (ht : t.Annotated spec) (heq : k.augmented = computed compute k t) :
    (zip (k :: path) t).Annotated spec := by
  have hplug := annotated_computed hs hsib ht
  rw [← heq] at hplug
  have hold := summed_augmented? (annotated_of_zip h)
  rw [hk] at hold
  have hnew := summed_augmented? hplug
  rw [augmented?_plug] at hnew
  rw [zip]
  exact annotated_zip h hplug (hs.replaces hold hnew)

end Values

end Tools
end Sword
