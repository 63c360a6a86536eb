import Mathlib

/-!
# Arithmetic progressions of natural numbers

A progression is given by its first element, its difference and how many elements
it has.  It is the set of the numbers between its first and its last element that
have the residue of the first.

* `progression` — the set; `mem_progression_iff` describes it by its bounds.
* `progression_succ`, `progression_pred` — one element more at either end.
* `progression_fold` — two progressions of one difference that continue each other,
  or have the same residue and overlapping ranges, are together the progression
  from the first of both to the last of both.
-/

namespace Sword
namespace Progression

/-- The numbers `start`, `start + diff`, ..., `count` of them. -/
def progression (start diff count : ℕ) : Set ℕ := {a | ∃ k < count, a = start + diff * k}

variable {start diff count a : ℕ}

theorem progression_one : progression start diff 1 = {start} := by
  ext a
  constructor
  · rintro ⟨k, hk, rfl⟩
    rw [Nat.lt_one_iff.1 hk]
    rfl
  · rintro rfl
    exact ⟨0, Nat.one_pos, rfl⟩

theorem start_mem_progression (h : 0 < count) : start ∈ progression start diff count :=
  ⟨0, h, rfl⟩

/-- One element more at the end. -/
theorem progression_succ : progression start diff (count + 1) =
    insert (start + diff * count) (progression start diff count) := by
  ext a
  constructor
  · rintro ⟨k, hk, rfl⟩
    rcases Nat.lt_succ_iff_lt_or_eq.1 hk with hk | rfl
    · exact Or.inr ⟨k, hk, rfl⟩
    · exact Or.inl rfl
  · rintro (rfl | ⟨k, hk, rfl⟩)
    · exact ⟨count, Nat.lt_succ_self count, rfl⟩
    · exact ⟨k, Nat.lt_succ_of_lt hk, rfl⟩

/-- One element more at the beginning. -/
theorem progression_pred (h : diff ≤ start) : progression (start - diff) diff (count + 1) =
    insert (start - diff) (progression start diff count) := by
  ext a
  constructor
  · rintro ⟨k, hk, rfl⟩
    cases k with
    | zero => exact Or.inl rfl
    | succ k => exact Or.inr ⟨k, Nat.lt_of_succ_lt_succ hk, by rw [Nat.mul_succ]; omega⟩
  · rintro (rfl | ⟨k, hk, rfl⟩)
    · exact ⟨0, Nat.succ_pos count, rfl⟩
    · exact ⟨k + 1, Nat.succ_lt_succ hk, by rw [Nat.mul_succ]; omega⟩

/-- The bounds of a progression and the residue of its elements. -/
theorem mem_progression_iff (hd : 0 < diff) (hc : 0 < count) :
    a ∈ progression start diff count ↔
      start ≤ a ∧ a ≤ start + diff * (count - 1) ∧ a % diff = start % diff := by
  constructor
  · rintro ⟨k, hk, rfl⟩
    have hle : diff * k ≤ diff * (count - 1) := Nat.mul_le_mul_left diff (by omega)
    exact ⟨by omega, by omega, Nat.add_mul_mod_self_left start diff k⟩
  · rintro ⟨hlo, hhi, hmod⟩
    obtain ⟨k, hk⟩ := (Nat.modEq_iff_dvd' hlo).1 hmod.symm
    have hkc : k ≤ count - 1 := Nat.le_of_mul_le_mul_left (by omega : diff * k ≤ _) hd
    exact ⟨k, by omega, by omega⟩

/-- Numbers of one residue are at least a difference apart. -/
theorem add_le_of_mod_eq {b : ℕ} (h : a % diff = b % diff) (hlt : a < b) : a + diff ≤ b := by
  have hdvd := (Nat.modEq_iff_dvd' hlt.le).1 h
  have hle := Nat.le_of_dvd (by omega) hdvd
  omega

/-- Two ranges of one residue, given by their first and last elements, that continue
each other or overlap. -/
theorem mem_range_union {d r s l s' l' a : ℕ} (hs : s % d = r) (hl : l % d = r)
    (hsl : s ≤ l) (hsl' : s' ≤ l') (h : l + d = s' ∨ l' + d = s ∨ s ≤ l' ∧ s' ≤ l)
    (ha : a % d = r) :
    min s s' ≤ a ∧ a ≤ max l l' ↔ (s ≤ a ∧ a ≤ l) ∨ (s' ≤ a ∧ a ≤ l') := by
  constructor
  · rintro ⟨hlo, hhi⟩
    by_cases hal : a ≤ l
    · by_cases hsa : s ≤ a
      · exact Or.inl ⟨hsa, hal⟩
      · have := add_le_of_mod_eq (ha.trans hs.symm) (not_le.1 hsa)
        exact Or.inr ⟨by omega, by omega⟩
    · have := add_le_of_mod_eq (hl.trans ha.symm) (not_le.1 hal)
      exact Or.inr ⟨by omega, by omega⟩
  · rintro (h | h) <;> omega

/-- **Folding.**  Two progressions of one difference that continue each other, or
have one residue and overlapping ranges. -/
theorem progression_fold {d s c s' c' : ℕ} (hd : 0 < d) (hc : 0 < c) (hc' : 0 < c')
    (h : s + d * (c - 1) + d = s' ∨ s' + d * (c' - 1) + d = s ∨
      (s ≤ s' + d * (c' - 1) ∧ s' ≤ s + d * (c - 1)) ∧ s % d = s' % d) :
    let start := min s s'
    let last := max (s + d * (c - 1)) (s' + d * (c' - 1))
    let count := (last - start) / d + 1
    start + d * (count - 1) = last ∧
      progression start d count = progression s d c ∪ progression s' d c' := by
  intro start last count
  have hl : (s + d * (c - 1)) % d = s % d := Nat.add_mul_mod_self_left s d _
  have hl' : (s' + d * (c' - 1)) % d = s' % d := Nat.add_mul_mod_self_left s' d _
  have hmod : s % d = s' % d := by
    rcases h with h | h | h
    · rw [← h, Nat.add_mod_right, hl]
    · rw [← h, Nat.add_mod_right, hl']
    · exact h.2
  have hor : s + d * (c - 1) + d = s' ∨ s' + d * (c' - 1) + d = s ∨
      s ≤ s' + d * (c' - 1) ∧ s' ≤ s + d * (c - 1) := h.imp_right (Or.imp_right And.left)
  have hstart : start % d = s % d := by
    rcases min_choice s s' with h | h
    · exact congrArg (· % d) h
    · exact (congrArg (· % d) h).trans hmod.symm
  have hlast : last % d = s % d := by
    rcases max_choice (s + d * (c - 1)) (s' + d * (c' - 1)) with h | h
    · exact (congrArg (· % d) h).trans hl
    · exact (congrArg (· % d) h).trans (hl'.trans hmod.symm)
  have hle : start ≤ last :=
    (min_le_left s s').trans ((Nat.le_add_right s _).trans (le_max_left _ _))
  have hend : start + d * (count - 1) = last := by
    have hdvd := (Nat.modEq_iff_dvd' hle).1 (hstart.trans hlast.symm)
    have hdiv := Nat.mul_div_cancel' hdvd
    rw [show count - 1 = (last - start) / d from rfl, hdiv]
    omega
  refine ⟨hend, ?_⟩
  ext a
  rw [Set.mem_union, mem_progression_iff hd (Nat.succ_pos _), mem_progression_iff hd hc,
    mem_progression_iff hd hc', hend, hstart, ← hmod]
  by_cases ha : a % d = s % d
  · have hunion := mem_range_union rfl hl (Nat.le_add_right s _) (Nat.le_add_right s' _) hor ha
    simpa only [ha, and_true] using hunion
  · simp only [ha, and_false, or_self]

end Progression
end Sword
