import Mathlib

/-!
# Keeping what is new

A list is gone through with a set of keys seen so far.  An element is kept if none of its
keys has been seen; its keys are seen from then on.

* `keepNew` — the elements kept.
* `keepNew_spec` — where sharing a key means being of one class, exactly one element of
  every class is kept.
* `keepNew_eq_nil_iff` — whatever the keys, something is kept of a list that has elements.
-/

namespace Sword
namespace FirstSeen

variable {α κ γ : Type}

/-- One element: the keys seen, and the elements kept. -/
def keepStep [DecidableEq κ] (keys : α → Finset κ) (s : Finset κ × List α) (a : α) :
    Finset κ × List α :=
  if Disjoint (keys a) s.1 then (s.1 ∪ keys a, s.2 ++ [a]) else s

/-- The elements kept. -/
def keepNew [DecidableEq κ] (keys : α → Finset κ) (l : List α) : List α :=
  (l.foldl (keepStep keys) (∅, [])).2

/-- Sharing a key means being of one class, for the elements of the list. -/
def Classified (keys : α → Finset κ) (cls : α → γ) (l : List α) : Prop :=
  ∀ a ∈ l, ∀ b ∈ l, (¬ Disjoint (keys a) (keys b) ↔ cls a = cls b)

/-- What holds when a part of the list has been gone through. -/
structure Kept (keys : α → Finset κ) (cls : α → γ) (seen : List α) (s : Finset κ × List α) :
    Prop where
  keys_eq : ∀ k, k ∈ s.1 ↔ ∃ a ∈ s.2, k ∈ keys a
  subset : s.2 ⊆ seen
  nodup : (s.2.map cls).Nodup
  classes : ∀ a ∈ seen, cls a ∈ s.2.map cls

variable {keys : α → Finset κ} {cls : α → γ} {l seen : List α} {s : Finset κ × List α} {a : α}

/-- An element is of a class kept exactly if one of its keys has been seen. -/
theorem Kept.mem_classes_iff (h : Kept keys cls seen s) (hcls : Classified keys cls l)
    (hseen : seen ⊆ l) (ha : a ∈ l) : cls a ∈ s.2.map cls ↔ ¬ Disjoint (keys a) s.1 := by
  rw [Finset.not_disjoint_iff, List.mem_map]
  constructor
  · rintro ⟨b, hb, heq⟩
    obtain ⟨k, hka, hkb⟩ := Finset.not_disjoint_iff.1
      ((hcls a ha b (hseen (h.subset hb))).2 heq.symm)
    exact ⟨k, hka, (h.keys_eq k).2 ⟨b, hb, hkb⟩⟩
  · rintro ⟨k, hka, hk⟩
    obtain ⟨b, hb, hkb⟩ := (h.keys_eq k).1 hk
    exact ⟨b, hb, ((hcls a ha b (hseen (h.subset hb))).1
      (Finset.not_disjoint_iff.2 ⟨k, hka, hkb⟩)).symm⟩

variable [DecidableEq κ]

theorem Kept.step (h : Kept keys cls seen s) (hcls : Classified keys cls l) (hseen : seen ⊆ l)
    (ha : a ∈ l) : Kept keys cls (seen ++ [a]) (keepStep keys s a) := by
  have hiff := h.mem_classes_iff hcls hseen ha
  rw [keepStep]
  split
  · rename_i hnew
    refine ⟨?_, ?_, ?_, ?_⟩
    · intro k
      simp only [Finset.mem_union, h.keys_eq, List.mem_append, List.mem_singleton, or_and_right,
        exists_or, exists_eq_left]
    · intro b hb
      rcases List.mem_append.1 hb with hb | hb
      · exact List.mem_append_left _ (h.subset hb)
      · exact List.mem_append_right _ hb
    · rw [List.map_append, List.map_singleton, List.nodup_append]
      refine ⟨h.nodup, List.nodup_singleton _, ?_⟩
      rintro c hc _ hd rfl
      rw [List.mem_singleton] at hd
      exact hiff.1 (hd ▸ hc) hnew
    · intro b hb
      rw [List.map_append, List.mem_append, List.map_singleton, List.mem_singleton]
      rcases List.mem_append.1 hb with hb | hb
      · exact Or.inl (h.classes b hb)
      · rw [List.mem_singleton.1 hb]
        exact Or.inr rfl
  · rename_i hold
    refine ⟨h.keys_eq, fun b hb => List.mem_append_left _ (h.subset hb), h.nodup, ?_⟩
    intro b hb
    rcases List.mem_append.1 hb with hb | hb
    · exact h.classes b hb
    · rw [List.mem_singleton.1 hb]
      exact hiff.2 hold

theorem kept_foldl (hcls : Classified keys cls l) (rest : List α) (h : Kept keys cls seen s)
    (hl : seen ++ rest = l) : Kept keys cls l (rest.foldl (keepStep keys) s) := by
  induction rest generalizing seen s with
  | nil =>
    rw [List.append_nil] at hl
    rw [← hl]
    exact h
  | cons a rest ih =>
    have hmem : a ∈ l := hl ▸ List.mem_append_right seen List.mem_cons_self
    have hseen : seen ⊆ l := fun b hb => hl ▸ List.mem_append_left _ hb
    exact ih (h.step hcls hseen hmem) (by rw [List.append_assoc]; exact hl)

/-- **One element of every class is kept.** -/
theorem keepNew_spec (hcls : Classified keys cls l) :
    keepNew keys l ⊆ l ∧ ((keepNew keys l).map cls).Nodup ∧
      ∀ c, c ∈ (keepNew keys l).map cls ↔ c ∈ l.map cls := by
  have hstart : Kept keys cls [] (∅, []) :=
    ⟨by simp, List.nil_subset _, List.nodup_nil, fun a ha => (List.not_mem_nil ha).elim⟩
  have h : Kept keys cls l (l.foldl (keepStep keys) (∅, [])) := kept_foldl hcls l hstart rfl
  refine ⟨h.subset, h.nodup, fun c => ⟨?_, ?_⟩⟩
  · intro hc
    obtain ⟨a, ha, rfl⟩ := List.mem_map.1 hc
    exact List.mem_map_of_mem (h.subset ha)
  · intro hc
    obtain ⟨a, ha, rfl⟩ := List.mem_map.1 hc
    exact h.classes a ha

theorem prefix_foldl_keepStep (l : List α) (s : Finset κ × List α) :
    s.2 <+: (l.foldl (keepStep keys) s).2 := by
  induction l generalizing s with
  | nil => exact List.prefix_rfl
  | cons a l ih =>
    refine List.IsPrefix.trans ?_ (ih (keepStep keys s a))
    rw [keepStep]
    split
    · exact List.prefix_append _ _
    · exact List.prefix_rfl

/-- The first element is kept. -/
theorem keepNew_eq_nil_iff : keepNew keys l = [] ↔ l = [] := by
  constructor
  · intro h
    cases l with
    | nil => rfl
    | cons a l =>
      have hfirst : keepStep keys (∅, []) a = (∅ ∪ keys a, [a]) := by
        rw [keepStep, if_pos (Finset.disjoint_empty_right _)]
        rfl
      have hprefix := @prefix_foldl_keepStep _ _ keys _ l (keepStep keys (∅, []) a)
      rw [keepNew, List.foldl_cons] at h
      rw [h, hfirst, List.prefix_nil] at hprefix
      cases hprefix
  · rintro rfl
    rfl

end FirstSeen
end Sword
