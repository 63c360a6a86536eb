import Sword.Lib.Cursor
import Sword.Tools.Rbtree

/-!
# Walks over the nodes of a tree: `rbtree.c`

Nodes know their parents, so that a walk needs no stack: it goes down into a child, or up
until it comes from the other side.

* `Node` — a node of a tree, with the nodes above it.
* `rbFirst`, `rbNext`, `rbLast`, `rbPrev` — the walks in order, which are each other's mirror image.
* `rbFirstPostorder`, `rbNextPostorder` — the walk that comes to a node after its children.
* `follow_rbNext`, `follow_rbPrev`, `follow_rbNextPostorder` — the nodes they come to: every node,
  once.
-/

namespace Sword
namespace Tools

open Cursor

variable {α β : Type}

/-! ## Nodes -/

/-- The other child. -/
def Dir.flip : Dir → Dir
  | .left => .right
  | .right => .left

/-- What belongs to this child, of two things for the left child and for the right one. -/
def Dir.pick {γ : Type} (d : Dir) (left right : γ) : γ :=
  match d with
  | .left => left
  | .right => right

/-- A tree with this child and the other one. -/
def Dir.node (d : Dir) (color : Color) (child : Rbtree α β) (entry : α) (augmented : β)
    (other : Rbtree α β) : Rbtree α β :=
  .node color (d.pick child other) entry augmented (d.pick other child)

/-- A node of a tree: the nodes above it, and what it has itself. -/
structure Node (α β : Type) where
  path : List (Crumb α β)
  color : Color
  left : Rbtree α β
  entry : α
  augmented : β
  right : Rbtree α β
  deriving DecidableEq, Repr

namespace Node

/-- The subtree of the node. -/
def subtree (n : Node α β) : Rbtree α β := .node n.color n.left n.entry n.augmented n.right

/-- The tree the node is in. -/
def root (n : Node α β) : Rbtree α β := zip n.path n.subtree

/-- The node, seen from its child on this side. -/
def crumb (n : Node α β) (d : Dir) : Crumb α β :=
  ⟨d, n.color, n.entry, n.augmented, d.pick n.right n.left⟩

/-- The child on this side. -/
def child (n : Node α β) (d : Dir) : Rbtree α β := d.pick n.left n.right

/-- The node above a subtree. -/
def above (k : Crumb α β) (path : List (Crumb α β)) (t : Rbtree α β) : Node α β :=
  ⟨path, k.color, k.dir.pick t k.sibling, k.entry, k.augmented, k.dir.pick k.sibling t⟩

@[simp] theorem child_left (n : Node α β) : n.child .left = n.left := rfl

@[simp] theorem child_right (n : Node α β) : n.child .right = n.right := rfl

@[simp] theorem above_crumb (n : Node α β) (d : Dir) :
    above (n.crumb d) n.path (n.child d) = n := by
  cases d <;> rfl

theorem subtree_above (k : Crumb α β) (path : List (Crumb α β)) (t : Rbtree α β) :
    (above k path t).subtree = k.plug t := by
  obtain ⟨dir, color, e, b, sibling⟩ := k
  cases dir <;> rfl

@[simp] theorem root_above (k : Crumb α β) (path : List (Crumb α β)) (t : Rbtree α β) :
    (above k path t).root = zip (k :: path) t := by
  rw [root, subtree_above]
  rfl

theorem toList_root (n : Node α β) : n.root.toList =
    before n.path ++ (n.left.toList ++ n.entry :: n.right.toList) ++ after n.path :=
  toList_zip n.path n.subtree

end Node

/-! ## In order -/

/-- The last node on the way to the side `d` from a node with the child `t` there. -/
def Node.most (d : Dir) : Rbtree α β → Node α β → Node α β
  | .nil, n => n
  | .node c l e b r, n =>
    match d with
    | .left => most d l ⟨n.crumb d :: n.path, c, l, e, b, r⟩
    | .right => most d r ⟨n.crumb d :: n.path, c, l, e, b, r⟩

/-- The last node on this side of a subtree. -/
def Rbtree.most (d : Dir) (path : List (Crumb α β)) : Rbtree α β → Option (Node α β)
  | .nil => none
  | .node c l e b r => some (Node.most d (d.pick l r) ⟨path, c, l, e, b, r⟩)

/-- `rb_first`. -/
def rbFirst (root : Rbtree α β) : Option (Node α β) := root.most .left []

/-- `rb_last`. -/
def rbLast (root : Rbtree α β) : Option (Node α β) := root.most .right []

/-- `while ((parent = rb_parent(node)) && node == parent->rb_right) node = parent;`, and the same
with the sides exchanged. -/
def climb (d : Dir) : List (Crumb α β) → Rbtree α β → Option (Node α β)
  | [], _ => none
  | k :: path, t => if k.dir = d then climb d path (k.plug t) else some (.above k path t)

/-- The next node to the side `d`. -/
def Node.toward (d : Dir) (n : Node α β) : Option (Node α β) :=
  match n.child d with
  | .nil => climb d n.path n.subtree
  | t => t.most d.flip (n.crumb d :: n.path)

/-- `rb_next`. -/
def rbNext (n : Node α β) : Option (Node α β) := n.toward .right

/-- `rb_prev`. -/
def rbPrev (n : Node α β) : Option (Node α β) := n.toward .left

/-- The nodes of a subtree, in order. -/
def Rbtree.nodes : List (Crumb α β) → Rbtree α β → List (Node α β)
  | _, .nil => []
  | path, .node c l e b r =>
    l.nodes (⟨.left, c, e, b, r⟩ :: path) ++
      ⟨path, c, l, e, b, r⟩ :: r.nodes (⟨.right, c, e, b, l⟩ :: path)

theorem entry_nodes (path : List (Crumb α β)) (t : Rbtree α β) :
    (t.nodes path).map Node.entry = t.toList := by
  induction t generalizing path with
  | nil => rfl
  | node c l e b r ihl ihr => simp [Rbtree.nodes, Rbtree.toList, ihl, ihr]

/-- They are nodes of one tree. -/
theorem root_of_mem_nodes {path : List (Crumb α β)} {t : Rbtree α β} {n : Node α β}
    (h : n ∈ t.nodes path) : n.root = zip path t := by
  induction t generalizing path with
  | nil => cases h
  | node c l e b r ihl ihr =>
    rcases List.mem_append.1 h with h | h
    · exact ihl h
    · rcases List.mem_cons.1 h with rfl | h
      · rfl
      · exact ihr h

theorem length_nodes (path : List (Crumb α β)) (t : Rbtree α β) :
    (t.nodes path).length = t.toList.length := by
  rw [← entry_nodes path, List.length_map]

/-- A node has as many nodes in front of it as its number says. -/
theorem length_before {path : List (Crumb α β)} {t : Rbtree α β} {i : ℕ} {n : Node α β}
    (h : (t.nodes path)[i]? = some n) :
    (before n.path ++ n.left.toList).length = (before path).length + i := by
  induction t generalizing path i with
  | nil => cases h
  | node c l e b r ihl ihr =>
    rw [Rbtree.nodes, List.getElem?_append] at h
    split at h
    · have hleft := ihl h
      exact hleft
    · rename_i hle
      rw [length_nodes] at h hle
      obtain ⟨j, rfl⟩ := Nat.exists_eq_add_of_le (Nat.not_lt.1 hle)
      rw [Nat.add_sub_cancel_left] at h
      cases j with
      | zero =>
        cases h
        simp
      | succ j =>
        rw [List.getElem?_cons_succ] at h
        rw [ihr h]
        simp [before]
        omega

/-- The nodes toward the side `d`. -/
def Rbtree.nodesToward (d : Dir) (path : List (Crumb α β)) (t : Rbtree α β) : List (Node α β) :=
  match d with
  | .right => t.nodes path
  | .left => (t.nodes path).reverse

theorem nodesToward_node (d : Dir) (n : Node α β) :
    n.subtree.nodesToward d n.path =
      (n.child d.flip).nodesToward d (n.crumb d.flip :: n.path) ++
        n :: (n.child d).nodesToward d (n.crumb d :: n.path) := by
  cases d with
  | right => rfl
  | left =>
    show (Rbtree.nodes n.path n.subtree).reverse = _
    rw [Node.subtree, Rbtree.nodes, List.reverse_append, List.reverse_cons, List.append_assoc]
    rfl

@[simp] theorem flip_flip (d : Dir) : d.flip.flip = d := by cases d <;> rfl

@[simp] theorem nodesToward_nil (d : Dir) (path : List (Crumb α β)) :
    (Rbtree.nil : Rbtree α β).nodesToward d path = [] := by
  cases d <;> rfl

theorem head?_nodesToward_subtree (d : Dir) {t : Rbtree α β} {n : Node α β} (h : n.child d = t) :
    (n.subtree.nodesToward d.flip n.path).head? = some (Node.most d t n) := by
  induction t generalizing n with
  | nil => simp [nodesToward_node, h, Node.most]
  | node c l e b r ihl ihr =>
    rw [nodesToward_node, flip_flip, h, List.head?_append]
    cases d with
    | left => exact congrArg (Option.or · _) (@ihl ⟨n.crumb .left :: n.path, c, l, e, b, r⟩ rfl)
    | right => exact congrArg (Option.or · _) (@ihr ⟨n.crumb .right :: n.path, c, l, e, b, r⟩ rfl)

/-- Away from the side `d`, the first node is the last one on that side. -/
theorem head?_nodesToward (d : Dir) (path : List (Crumb α β)) (t : Rbtree α β) :
    (t.nodesToward d.flip path).head? = t.most d path := by
  cases t with
  | nil => simp [Rbtree.most]
  | node c l e b r => exact @head?_nodesToward_subtree _ _ d _ ⟨path, c, l, e, b, r⟩ rfl

/-- The nodes toward the side `d` from a subtree. -/
def afterToward (d : Dir) : List (Crumb α β) → Rbtree α β → List (Node α β)
  | [], _ => []
  | k :: path, t =>
    if k.dir = d then afterToward d path (k.plug t)
    else .above k path t ::
      k.sibling.nodesToward d ((Node.above k path t).crumb d :: path) ++
        afterToward d path (k.plug t)

/-- The nodes toward the side `d` from a node. -/
def Node.rest (d : Dir) (n : Node α β) : List (Node α β) :=
  (n.child d).nodesToward d (n.crumb d :: n.path) ++ afterToward d n.path n.subtree

theorem rests_nodesToward (d : Dir) (path : List (Crumb α β)) (t : Rbtree α β) :
    Rests (Node.rest d) (t.nodesToward d path) (afterToward d path t) := by
  induction t generalizing path with
  | nil => simp [Rests]
  | node c l e b r ihl ihr =>
    generalize hn : (⟨path, c, l, e, b, r⟩ : Node α β) = n
    obtain ⟨rfl, ht⟩ : path = n.path ∧ Rbtree.node c l e b r = n.subtree := by
      rw [← hn]
      exact ⟨rfl, rfl⟩
    have hchild : ∀ s p, Rests (Node.rest d) ((n.child s).nodesToward d p)
        (afterToward d p (n.child s)) := by
      intro s p
      rw [← hn]
      cases s with
      | left => exact ihl p
      | right => exact ihr p
    -- what comes behind a child: nothing more, or its parent and the other child
    have hnear : afterToward d (n.crumb d :: n.path) (n.child d) =
        afterToward d n.path n.subtree := by
      cases d <;> rfl
    have hfar : afterToward d (n.crumb d.flip :: n.path) (n.child d.flip) =
        n :: (n.child d).nodesToward d (n.crumb d :: n.path) ++
          afterToward d n.path n.subtree := by
      cases d <;> rfl
    rw [ht, nodesToward_node, rests_append]
    exact ⟨hfar ▸ hchild d.flip _, rfl, hnear ▸ hchild d _⟩

theorem head?_afterToward (d : Dir) (path : List (Crumb α β)) (t : Rbtree α β) :
    (afterToward d path t).head? = climb d path t := by
  induction path generalizing t with
  | nil => rfl
  | cons k path ih =>
    rw [afterToward, climb]
    split
    · exact ih _
    · rfl

/-- One step goes to the next of these nodes. -/
theorem toward_eq (d : Dir) (n : Node α β) : n.toward d = (n.rest d).head? := by
  rw [Node.toward, Node.rest]
  split
  · rename_i hc
    rw [hc, nodesToward_nil, List.nil_append, head?_afterToward]
  · rename_i hc
    obtain ⟨c, l, e, b, r, hnode⟩ : ∃ c l e b r, n.child d = .node c l e b r := by
      cases hn : n.child d with
      | nil => exact absurd hn hc
      | node c l e b r => exact ⟨c, l, e, b, r, rfl⟩
    have hhead := head?_nodesToward d.flip (n.crumb d :: n.path) (n.child d)
    rw [flip_flip] at hhead
    rw [List.head?_append, hhead, hnode]
    rfl

theorem leads_toward (d : Dir) (t : Rbtree α β) :
    Leads (Node.toward d) (t.nodesToward d []) none :=
  leads_of_rests (rests_nodesToward d [] t) fun n _ => toward_eq d n

/-- **`rb_first` and `rb_next`** come to every node of the tree once, in order. -/
theorem follow_rbNext (t : Rbtree α β) {turns : ℕ} (h : t.toList.length ≤ turns) :
    follow rbNext turns (rbFirst t) = t.nodes [] := by
  rw [← entry_nodes [], List.length_map] at h
  rw [rbFirst, ← head?_nodesToward]
  exact follow_eq (leads_toward .right t) h

/-- **`rb_last` and `rb_prev`** come to them in the opposite order. -/
theorem follow_rbPrev (t : Rbtree α β) {turns : ℕ} (h : t.toList.length ≤ turns) :
    follow rbPrev turns (rbLast t) = (t.nodes []).reverse := by
  rw [← entry_nodes [], List.length_map, ← List.length_reverse] at h
  rw [rbLast, ← head?_nodesToward]
  exact follow_eq (leads_toward .left t) h

/-! ## Children first -/

/-- `rb_left_deepest_node`, of the root of a subtree. -/
def Rbtree.leftDeepest (path : List (Crumb α β)) : Rbtree α β → Option (Node α β)
  | .nil => none
  | .node c l e b r =>
    match l with
    | .node .. => l.leftDeepest (⟨.left, c, e, b, r⟩ :: path)
    | .nil =>
      match r with
      | .node .. => r.leftDeepest (⟨.right, c, e, b, .nil⟩ :: path)
      | .nil => some ⟨path, c, .nil, e, b, .nil⟩

/-- `rb_first_postorder`. -/
def rbFirstPostorder (root : Rbtree α β) : Option (Node α β) := root.leftDeepest []

/-- `rb_next_postorder`, of the root of a subtree. -/
def upPostorder : List (Crumb α β) → Rbtree α β → Option (Node α β)
  | [], _ => none
  | k :: path, t =>
    match k.dir, k.sibling with
    | .left, .node .. => k.sibling.leftDeepest ((Node.above k path t).crumb .right :: path)
    | _, _ => some (.above k path t)

/-- `rb_next_postorder`. -/
def rbNextPostorder (n : Node α β) : Option (Node α β) := upPostorder n.path n.subtree

/-- The nodes of a subtree, with the children in front of their parents. -/
def Rbtree.postorder : List (Crumb α β) → Rbtree α β → List (Node α β)
  | _, .nil => []
  | path, .node c l e b r =>
    l.postorder (⟨.left, c, e, b, r⟩ :: path) ++
      (r.postorder (⟨.right, c, e, b, l⟩ :: path) ++ [⟨path, c, l, e, b, r⟩])

theorem postorder_ne_nil (path : List (Crumb α β)) (c : Color) (l : Rbtree α β) (e : α) (b : β)
    (r : Rbtree α β) : (Rbtree.node c l e b r).postorder path ≠ [] := by
  simp [Rbtree.postorder]

theorem head?_postorder (path : List (Crumb α β)) (t : Rbtree α β) :
    (t.postorder path).head? = t.leftDeepest path := by
  induction t generalizing path with
  | nil => rfl
  | node c l e b r ihl ihr =>
    rw [Rbtree.postorder]
    cases l with
    | node => exact (List.head?_append_of_ne_nil _ (postorder_ne_nil _ _ _ _ _ _)).trans (ihl _)
    | nil =>
      cases r with
      | node => exact (List.head?_append_of_ne_nil _ (postorder_ne_nil _ _ _ _ _ _)).trans (ihr _)
      | nil => rfl

/-- **The walk** in a subtree comes to the children first, and goes on above. -/
theorem leads_postorder (path : List (Crumb α β)) (t : Rbtree α β) :
    Leads rbNextPostorder (t.postorder path) (upPostorder path t) := by
  induction t generalizing path with
  | nil => trivial
  | node c l e b r ihl ihr =>
    rw [Rbtree.postorder, leads_append, leads_append]
    refine ⟨?_, ihr _, rfl, trivial⟩
    have hup := ihl (⟨.left, c, e, b, r⟩ :: path)
    cases r with
    | nil => exact hup
    | node c' l' e' b' r' =>
      -- from the left child the walk goes to the deepest node on the right
      obtain ⟨n, hn⟩ : ∃ n, (Rbtree.node c' l' e' b' r').leftDeepest
          (⟨.right, c, e, b, l⟩ :: path) = some n := by
        rw [← head?_postorder, ← Option.isSome_iff_exists, List.isSome_head?]
        exact postorder_ne_nil _ _ _ _ _ _
      rw [List.head?_append, head?_postorder, hn]
      rwa [show upPostorder (⟨.left, c, e, b, .node c' l' e' b' r'⟩ :: path) l = some n from hn]
        at hup

theorem postorder_perm (path : List (Crumb α β)) (t : Rbtree α β) :
    (t.postorder path).Perm (t.nodes path) := by
  induction t generalizing path with
  | nil => exact .nil
  | node c l e b r ihl ihr =>
    rw [Rbtree.postorder, Rbtree.nodes]
    exact (ihl _).append ((List.perm_append_singleton _ _).trans ((ihr _).cons _))

/-- The node `n` is below the node `m`. -/
def Node.Below (n m : Node α β) : Prop := ∃ d, (m.crumb d :: m.path) <:+ n.path

theorem suffix_of_mem_nodes {path : List (Crumb α β)} {t : Rbtree α β} {n : Node α β}
    (h : n ∈ t.nodes path) : path <:+ n.path := by
  induction t generalizing path with
  | nil => cases h
  | node c l e b r ihl ihr =>
    rcases List.mem_append.1 h with h | h
    · exact (List.suffix_cons _ _).trans (ihl h)
    · rcases List.mem_cons.1 h with rfl | h
      · exact List.suffix_rfl
      · exact (List.suffix_cons _ _).trans (ihr h)

/-- Of two positions, one is not in the subtree of a node beside the other. -/
theorem not_below {m n : Node α β} {k k' : Crumb α β} {path : List (Crumb α β)} (hne : k ≠ k')
    (hm : (k :: path) <:+ m.path) (hn : (k' :: path) <:+ n.path) : ¬ n.Below m := by
  rintro ⟨d, hd⟩
  have hk := (hm.trans (List.suffix_cons _ _)).trans hd
  rcases List.suffix_or_suffix_of_suffix hk hn with h | h
  · exact hne (List.cons.inj (h.eq_of_length rfl)).1
  · exact hne (List.cons.inj (h.eq_of_length rfl)).1.symm

/-- No node comes before one below it. -/
theorem pairwise_postorder (path : List (Crumb α β)) (t : Rbtree α β) :
    (t.postorder path).Pairwise fun m n => ¬ n.Below m := by
  have hsuffix : ∀ {t : Rbtree α β} {path : List (Crumb α β)} {n : Node α β},
      n ∈ t.postorder path → path <:+ n.path := fun h =>
    suffix_of_mem_nodes ((postorder_perm _ _).mem_iff.1 h)
  induction t generalizing path with
  | nil => exact .nil
  | node c l e b r ihl ihr =>
    -- the node itself has a shorter path than the nodes in its subtree
    have hroot : ∀ {k : Crumb α β} {m : Node α β}, (k :: path) <:+ m.path →
        ¬ (⟨path, c, l, e, b, r⟩ : Node α β).Below m := by
      rintro k m hm ⟨d, hd⟩
      have hlen := (hm.trans (List.suffix_cons _ _)).length_le.trans hd.length_le
      simp at hlen
    rw [Rbtree.postorder, List.pairwise_append, List.pairwise_append]
    refine ⟨ihl _, ⟨ihr _, List.pairwise_singleton _ _, ?_⟩, ?_⟩
    · intro m hm n hn
      obtain rfl := List.mem_singleton.1 hn
      exact hroot (hsuffix hm)
    · intro m hm n hn
      rcases List.mem_append.1 hn with hn | hn
      · exact not_below (by simp) (hsuffix hm) (hsuffix hn)
      · obtain rfl := List.mem_singleton.1 hn
        exact hroot (hsuffix hm)

/-- **`rb_first_postorder` and `rb_next_postorder`** come to every node once, and to the
children of a node before it. -/
theorem follow_rbNextPostorder (t : Rbtree α β) {turns : ℕ}
    (h : t.toList.length ≤ turns) :
    follow rbNextPostorder turns (rbFirstPostorder t) = t.postorder [] := by
  rw [← entry_nodes [], List.length_map, ← (postorder_perm [] t).length_eq] at h
  rw [rbFirstPostorder, ← head?_postorder]
  exact follow_eq (leads_postorder [] t) h

/-- **The walks** of `rbtree.c` come to every node of a tree once and end: `rb_first` and `rb_next`
in order, `rb_last` and `rb_prev` in the opposite order, and `rb_first_postorder` and
`rb_next_postorder` to no node before one below it. -/
theorem walks_spec (t : Rbtree α β) (more : ℕ) :
    (t.nodes []).map Node.entry = t.toList ∧
      follow rbNext (t.toList.length + more) (rbFirst t) = t.nodes [] ∧
      follow rbPrev (t.toList.length + more) (rbLast t) = (t.nodes []).reverse ∧
      (follow rbNextPostorder (t.toList.length + more) (rbFirstPostorder t)).Perm (t.nodes []) ∧
      (follow rbNextPostorder (t.toList.length + more) (rbFirstPostorder t)).Pairwise
        fun m n => ¬ n.Below m := by
  have hle := Nat.le_add_right t.toList.length more
  rw [follow_rbNext t hle, follow_rbPrev t hle, follow_rbNextPostorder t hle]
  exact ⟨entry_nodes [] t, rfl, rfl, postorder_perm [] t, pairwise_postorder [] t⟩

end Tools
end Sword
