import Sword.Tools.Rbtree

/-!
# Augmented values: `rbtree_augmented.h`

The value of a node is meant to be computed from the entries of its subtree.  Insertion
keeps it so by three means: it changes the values on the way down, `augment_rotate` computes
the value of the node that goes down in a rotation anew, and the node that goes up takes
over the value of the other.

* `Summary` — values that `compute` gets from an entry and the values of the children,
  and that depend on a part of the walk only by the value of the part.
* `Annotated` — every node has the value of its subtree.
* `annotated_insertColor` — rebalancing keeps trees annotated.
* `annotated_descend_added` — so does a descent that adds an entry.
* `Covered`, `annotated_descend_stopped` — when a descent that ends at a node does.
-/

namespace Sword
namespace Tools

variable {α β : Type}

/-- The value of a part of the walk, which may be empty. -/
def Summed (spec : List α → β → Prop) (es : List α) : Option β → Prop
  | none => es = []
  | some b => spec es b

/-- The values `spec` are those `compute` gets from an entry and the values of what is in
front of it and behind; and parts of a walk that have a value in common may stand for each
other. -/
structure Summary (spec : List α → β → Prop) (compute : α → Option β → Option β → β) :
    Prop where
  compute_spec : ∀ {es fs : List α} {e : α} {a b : Option β}, Summed spec es a →
    Summed spec fs b → spec (es ++ e :: fs) (compute e a b)
  congr : ∀ {es es' : List α} {b : β}, spec es b → spec es' b →
    ∀ {front behind : List α} {c : β}, spec (front ++ (es ++ behind)) c →
      spec (front ++ (es' ++ behind)) c

/-- Every node has the value of the walk of its subtree. -/
def Rbtree.Annotated (spec : List α → β → Prop) : Rbtree α β → Prop
  | .nil => True
  | .node _ l e b r =>
    l.Annotated spec ∧ spec (l.toList ++ e :: r.toList) b ∧ r.Annotated spec

section Summary

variable {spec : List α → β → Prop} {compute : α → Option β → Option β → β}

theorem summed_augmented? {t : Rbtree α β} (h : t.Annotated spec) :
    Summed spec t.toList t.augmented? := by
  cases t with
  | nil => rfl
  | node c l e b r => exact h.2.1

@[simp] theorem annotated_blacken {t : Rbtree α β} :
    t.blacken.Annotated spec ↔ t.Annotated spec := by
  cases t <;> rfl

theorem annotated_recompute (hs : Summary spec compute) {color : Color} {l r : Rbtree α β} {e : α}
    (hl : l.Annotated spec) (hr : r.Annotated spec) :
    (recompute compute color l e r).Annotated spec :=
  ⟨hl, hs.compute_spec (summed_augmented? hl) (summed_augmented? hr), hr⟩

/-! ## A subtree replaced -/

/-- Where `es` is part of a walk, `es'` may stand for it. -/
def Replaces (spec : List α → β → Prop) (es es' : List α) : Prop :=
  ∀ front behind c, spec (front ++ (es ++ behind)) c → spec (front ++ (es' ++ behind)) c

theorem Summary.replaces (hs : Summary spec compute) {es es' : List α} {b : β} (h : spec es b)
    (h' : spec es' b) : Replaces spec es es' := fun _ _ _ hc => hs.congr h h' hc

/-- What may stand for a part may do so inside a longer part. -/
theorem Replaces.extend {es es' : List α} (h : Replaces spec es es') (front behind : List α) :
    Replaces spec (front ++ (es ++ behind)) (front ++ (es' ++ behind)) := by
  intro f b c hc
  have hc' := h (f ++ front) (behind ++ b) c (by simpa using hc)
  simpa using hc'

theorem annotated_of_zip {path : List (Crumb α β)} {t : Rbtree α β}
    (h : (zip path t).Annotated spec) : t.Annotated spec := by
  induction path generalizing t with
  | nil => exact h
  | cons k path ih =>
    obtain ⟨dir, color, e, b, sibling⟩ := k
    cases dir with
    | left => exact (ih h).1
    | right => exact (ih h).2.2

theorem annotated_plug {k : Crumb α β} {t t' : Rbtree α β} (h : (k.plug t).Annotated spec)
    (ht' : t'.Annotated spec) (hr : Replaces spec t.toList t'.toList) :
    (k.plug t').Annotated spec := by
  obtain ⟨dir, color, e, b, sibling⟩ := k
  cases dir with
  | left => exact ⟨ht', hr [] _ b h.2.1, h.2.2⟩
  | right =>
    have hspec := hr (sibling.toList ++ [e]) [] b (by simpa [Rbtree.toList] using h.2.1)
    exact ⟨h.1, by simpa using hspec, ht'⟩

theorem replaces_plug {k : Crumb α β} {t t' : Rbtree α β} (hr : Replaces spec t.toList t'.toList) :
    Replaces spec (k.plug t).toList (k.plug t').toList := by
  obtain ⟨dir, color, e, b, sibling⟩ := k
  cases dir with
  | left => exact hr.extend [] (e :: sibling.toList)
  | right => simpa [Crumb.plug, Rbtree.toList] using hr.extend (sibling.toList ++ [e]) []

/-- **A subtree** may be replaced by one whose walk may stand for its own. -/
theorem annotated_zip {path : List (Crumb α β)} {t t' : Rbtree α β}
    (h : (zip path t).Annotated spec) (ht' : t'.Annotated spec)
    (hr : Replaces spec t.toList t'.toList) : (zip path t').Annotated spec := by
  induction path generalizing t t' with
  | nil => exact ht'
  | cons k path ih => exact ih h (annotated_plug (annotated_of_zip h) ht' hr) (replaces_plug hr)

/-- In particular by one with the same walk. -/
theorem annotated_zip_of_toList {path : List (Crumb α β)} {t t' : Rbtree α β}
    (h : (zip path t).Annotated spec) (ht' : t'.Annotated spec) (heq : t'.toList = t.toList) :
    (zip path t').Annotated spec :=
  annotated_zip h ht' fun _ _ _ hc => heq ▸ hc

/-! ## Rebalancing -/

theorem annotated_rotate (hs : Summary spec compute) {gparent parent : Crumb α β}
    {node : RedNode α β} (h : (gparent.plug (parent.plug node.toTree)).Annotated spec) :
    (rotate compute gparent parent node).Annotated spec := by
  -- the node on top takes over the value of the grandparent, and the walk is the same
  have htop : ∀ {b : β}, spec (gparent.plug (parent.plug node.toTree)).toList b →
      spec (rotate compute gparent parent node).toList b := fun hb => by rwa [toList_rotate]
  obtain ⟨gdir, gcolor, ge, ga, gs⟩ := gparent
  obtain ⟨pdir, pcolor, pe, pa, ps⟩ := parent
  obtain ⟨nl, ne, na, nr⟩ := node
  cases gdir with
  | left =>
    obtain ⟨hp, hg, hgs⟩ := h
    have hg := htop hg
    cases pdir with
    | left =>
      obtain ⟨hn, hpspec, hps⟩ := hp
      exact ⟨hn, hg, annotated_recompute hs (annotated_blacken.2 hps) hgs⟩
    | right =>
      obtain ⟨hps, hpspec, hnl, hnspec, hnr⟩ := hp
      exact ⟨annotated_recompute hs hps (annotated_blacken.2 hnl), hg,
        annotated_recompute hs (annotated_blacken.2 hnr) hgs⟩
  | right =>
    obtain ⟨hgs, hg, hp⟩ := h
    have hg := htop hg
    cases pdir with
    | right =>
      obtain ⟨hps, hpspec, hn⟩ := hp
      exact ⟨annotated_recompute hs hgs (annotated_blacken.2 hps), hg, hn⟩
    | left =>
      obtain ⟨⟨hnl, hnspec, hnr⟩, hpspec, hps⟩ := hp
      exact ⟨annotated_recompute hs hgs (annotated_blacken.2 hnl), hg,
        annotated_recompute hs (annotated_blacken.2 hnr) hps⟩

/-- **Rebalancing** keeps trees annotated. -/
theorem annotated_insertColor (hs : Summary spec compute) {path : List (Crumb α β)}
    {node : RedNode α β} (h : (zip path node.toTree).Annotated spec) :
    (insertColor compute path node).Annotated spec := by
  induction path using List.twoStepInduction generalizing node with
  | nil => exact annotated_blacken.2 h
  | singleton parent => exact h
  | cons_cons parent gparent path ih _ =>
    have hzip : (zip path (gparent.plug (parent.plug node.toTree))).Annotated spec := h
    have hsub : (gparent.plug (parent.plug node.toTree)).Annotated spec := annotated_of_zip hzip
    rw [insertColor]
    split
    · exact h
    · split
      · -- only colours change
        refine ih (annotated_zip_of_toList hzip ?_ ?_)
        all_goals
          obtain ⟨gdir, gcolor, ge, ga, gs⟩ := gparent
          obtain ⟨pdir, pcolor, pe, pa, ps⟩ := parent
        · cases gdir <;> cases pdir <;>
            simpa [Crumb.redden, Crumb.plug, RedNode.toTree, Rbtree.Annotated, Rbtree.toList]
              using hsub
        · cases gdir <;> cases pdir <;>
            simp [Crumb.redden, Crumb.plug, RedNode.toTree, Rbtree.toList]
      · exact annotated_zip_of_toList hzip (annotated_rotate hs hsub)
          (toList_rotate compute gparent parent node)

/-! ## Descents -/

variable {visit : α → Visit α} {goLeft : α → Bool} {pass : β → β} {entry : α} {augmented : β}

/-- **A descent that adds an entry** keeps trees annotated, if what it does to the values on the
way is what the entry does to them. -/
theorem annotated_descend_added (hs : Summary spec compute) (hentry : spec [entry] augmented)
    (hpass : ∀ {front behind : List α} {b : β}, spec (front ++ behind) b →
      spec (front ++ entry :: behind) (pass b)) {t : Rbtree α β} {path : List (Crumb α β)}
    (hdescend : ∀ e ∈ t.visited visit goLeft, ∀ e', visit e = .descend e' → e' = e)
    (hnone : (t.place visit goLeft).stop = none) (ht : t.Annotated spec)
    (hpath : ∀ t' : Rbtree α β, t'.Annotated spec → ∀ front behind, t.toList = front ++ behind →
      t'.toList = front ++ entry :: behind → (zip path t').Annotated spec) :
    (descend compute visit goLeft pass entry augmented path t).Annotated spec := by
  induction t generalizing path with
  | nil =>
    rw [descend]
    exact annotated_insertColor hs (hpath _ ⟨trivial, hentry, trivial⟩ [] [] rfl rfl)
  | node c l e b r ihl ihr =>
    rw [Rbtree.place] at hnone
    rw [Rbtree.visited] at hdescend
    cases hv : visit e with
    | stop e' =>
      rw [hv] at hnone
      cases hnone
    | descend e' =>
      rw [hv] at hnone hdescend
      dsimp only at hnone hdescend
      obtain rfl := hdescend e List.mem_cons_self e' hv
      rw [descend, hv]
      dsimp only
      split at hdescend
      all_goals
        rename_i hgo
        simp only [hgo] at hnone ⊢
      · refine ihl (fun d hd => hdescend d (List.mem_cons_of_mem _ hd)) hnone ht.1 ?_
        intro t' ht' front behind hl hl'
        refine hpath (.node c t' e' (pass b) r) ⟨ht', ?_, ht.2.2⟩ front (behind ++ e' :: r.toList)
          (by simp [Rbtree.toList, hl]) (by simp [Rbtree.toList, hl'])
        have hspec := @hpass front (behind ++ e' :: r.toList) b (by simpa [hl] using ht.2.1)
        simpa [hl'] using hspec
      · refine ihr (fun d hd => hdescend d (List.mem_cons_of_mem _ hd)) hnone ht.2.2 ?_
        intro t' ht' front behind hr hr'
        refine hpath (.node c l e' (pass b) t') ⟨ht.1, ?_, ht'⟩ (l.toList ++ e' :: front) behind
          (by simp [Rbtree.toList, hr]) (by simp [Rbtree.toList, hr'])
        have hspec := @hpass (l.toList ++ e' :: front) behind b (by simpa [hr] using ht.2.1)
        simpa [hr'] using hspec

/-- The descent leaves the values on the way as they are, and the node where it ends keeps its
value. -/
def Rbtree.Covered (spec : List α → β → Prop) (visit : α → Visit α) (goLeft : α → Bool)
    (pass : β → β) : Rbtree α β → Prop
  | .nil => True
  | .node _ l e b r =>
    match visit e with
    | .stop e' => spec (l.toList ++ e' :: r.toList) b
    | .descend e' => pass b = b ∧
        if goLeft e' then l.Covered spec visit goLeft pass else r.Covered spec visit goLeft pass

/-- **A descent that ends at a node** keeps trees annotated, if it is covered. -/
theorem annotated_descend_stopped (hs : Summary spec compute) {t : Rbtree α β}
    {path : List (Crumb α β)}
    (hdescend : ∀ e ∈ t.visited visit goLeft, ∀ e', visit e = .descend e' → e' = e)
    (hstop : (t.place visit goLeft).stop ≠ none) (hcovered : t.Covered spec visit goLeft pass)
    (ht : t.Annotated spec) (hpath : ∀ t' : Rbtree α β, t'.Annotated spec →
      Replaces spec t.toList t'.toList → (zip path t').Annotated spec) :
    (descend compute visit goLeft pass entry augmented path t).Annotated spec := by
  induction t generalizing path with
  | nil => exact absurd rfl hstop
  | node c l e b r ihl ihr =>
    rw [Rbtree.place] at hstop
    rw [Rbtree.visited] at hdescend
    rw [Rbtree.Covered] at hcovered
    rw [descend]
    cases hv : visit e with
    | stop e' =>
      rw [hv] at hcovered
      exact hpath _ ⟨ht.1, hcovered, ht.2.2⟩ (hs.replaces ht.2.1 hcovered)
    | descend e' =>
      rw [hv] at hstop hdescend hcovered
      dsimp only at hstop hdescend hcovered ⊢
      obtain rfl := hdescend e List.mem_cons_self e' hv
      obtain ⟨hpass, hcovered⟩ := hcovered
      split at hdescend
      all_goals
        rename_i hgo
        simp only [hgo] at hstop hcovered ⊢
      · refine ihl (fun d hd => hdescend d (List.mem_cons_of_mem _ hd)) hstop hcovered ht.1 ?_
        intro t' ht' hr
        exact hpath _ (annotated_plug (k := ⟨.left, c, e', pass b, r⟩) (hpass.symm ▸ ht) ht' hr)
          (replaces_plug (k := ⟨.left, c, e', pass b, r⟩) hr)
      · refine ihr (fun d hd => hdescend d (List.mem_cons_of_mem _ hd)) hstop hcovered ht.2.2 ?_
        intro t' ht' hr
        exact hpath _ (annotated_plug (k := ⟨.right, c, e', pass b, l⟩) (hpass.symm ▸ ht) ht' hr)
          (replaces_plug (k := ⟨.right, c, e', pass b, l⟩) hr)

end Summary

/-- The values along a walk. -/
def Rbtree.values (goLeft : α → Bool) : Rbtree α β → List β
  | .nil => []
  | .node _ l e b r => b :: if goLeft e then l.values goLeft else r.values goLeft

/-- A walk that leaves these values as they are changes nothing. -/
theorem walk_eq_self {goLeft : α → Bool} {pass : β → β} {t : Rbtree α β}
    (h : ∀ b ∈ t.values goLeft, pass b = b) : t.walk goLeft pass = t := by
  induction t with
  | nil => rfl
  | node c l e b r ihl ihr =>
    rw [Rbtree.values] at h
    rw [Rbtree.walk, h b List.mem_cons_self]
    split at h
    · rename_i hgo
      rw [if_pos hgo, ihl fun d hd => h d (List.mem_cons_of_mem _ hd)]
    · rename_i hgo
      rw [if_neg hgo, ihr fun d hd => h d (List.mem_cons_of_mem _ hd)]

end Tools
end Sword
