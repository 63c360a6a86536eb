import Mathlib

/-!
# Open addressing

Keys lie in cells.  A key is looked for in the cells of its probe sequence, from the first
one on, until it is found, or a free cell is, or a bound on the number of probes is reached.

* `Stored` — the keys in the cells.
* `Probed` — the invariant: every key lies among the first cells of its sequence, and no
  cell before it is free.
* `not_stored_of_free`, `not_stored_of_bound` — what an unsuccessful search means.
* `probed_insert`, `stored_insert` — what holds when a key is put into a cell.
* `exists_add_mod_eq` — linear probing visits every cell.
-/

namespace Sword
namespace Probing

variable {K C : Type} (seq : K → ℕ → C)

/-- The key lies in some cell. -/
def Stored (cells : C → Option K) (key : K) : Prop := ∃ c, cells c = some key

/-- Every key lies among the first `bound` cells of its sequence, behind cells that are not
free. -/
def Probed (cells : C → Option K) (bound : ℕ) : Prop :=
  ∀ c key, cells c = some key → ∃ d < bound, seq key d = c ∧ ∀ e < d, cells (seq key e) ≠ none

variable {seq} {cells : C → Option K} {bound d : ℕ} {key : K}

theorem probed_of_free (h : ∀ c, cells c = none) : Probed seq cells bound := by
  intro c key hc
  rw [h] at hc
  cases hc

/-- **A search that ends at a free cell.** -/
theorem not_stored_of_free (h : Probed seq cells bound) (hfree : cells (seq key d) = none)
    (hother : ∀ e < d, cells (seq key e) ≠ some key) : ¬ Stored cells key := by
  rintro ⟨c, hc⟩
  obtain ⟨e, -, rfl, hbefore⟩ := h c key hc
  rcases lt_trichotomy e d with hlt | rfl | hlt
  · exact hother e hlt hc
  · rw [hfree] at hc
    cases hc
  · exact hbefore d hlt hfree

/-- **A search that ends at the bound.** -/
theorem not_stored_of_bound (h : Probed seq cells bound)
    (hother : ∀ e < bound, cells (seq key e) ≠ some key) : ¬ Stored cells key := by
  rintro ⟨c, hc⟩
  obtain ⟨e, he, rfl, -⟩ := h c key hc
  exact hother e he hc

variable [DecidableEq C]

/-- **A key put into a cell** of its sequence behind cells that are not free, with a bound
that covers it. -/
theorem probed_insert (h : Probed seq cells bound)
    (hbefore : ∀ e < d, cells (seq key e) ≠ none) {bound' : ℕ} (hd : d < bound')
    (hle : bound ≤ bound') : Probed seq (Function.update cells (seq key d) (some key)) bound' := by
  have hkeeps : ∀ c, cells c ≠ none → Function.update cells (seq key d) (some key) c ≠ none := by
    intro c hc
    rw [Function.update_apply]
    split
    · exact Option.some_ne_none key
    · exact hc
  intro c k hc
  by_cases heq : c = seq key d
  · rw [heq, Function.update_self] at hc
    obtain rfl := Option.some.inj hc
    exact ⟨d, hd, heq.symm, fun e he => hkeeps _ (hbefore e he)⟩
  · rw [Function.update_of_ne heq] at hc
    obtain ⟨e, he, hseq, hpath⟩ := h c k hc
    exact ⟨e, he.trans_le hle, hseq, fun f hf => hkeeps _ (hpath f hf)⟩

theorem stored_insert {c : C} (hfree : cells c = none) {k : K} :
    Stored (Function.update cells c (some key)) k ↔ k = key ∨ Stored cells k := by
  constructor
  · rintro ⟨b, hb⟩
    by_cases heq : b = c
    · rw [heq, Function.update_self] at hb
      exact Or.inl (Option.some.inj hb).symm
    · rw [Function.update_of_ne heq] at hb
      exact Or.inr ⟨b, hb⟩
  · rintro (rfl | ⟨b, hb⟩)
    · exact ⟨c, Function.update_self ..⟩
    · refine ⟨b, ?_⟩
      rw [Function.update_of_ne, hb]
      rintro rfl
      rw [hfree] at hb
      cases hb

/-- Linear probing comes to every cell within as many steps as there are cells. -/
theorem exists_add_mod_eq {size cell : ℕ} (home : ℕ) (h : cell < size) :
    ∃ d < size, (home + d) % size = cell := by
  have hhome := Nat.mod_lt home (by omega : 0 < size)
  by_cases hle : home % size ≤ cell
  · refine ⟨cell - home % size, by omega, ?_⟩
    rw [Nat.add_mod, Nat.mod_eq_of_lt (by omega : cell - home % size < size),
      Nat.add_sub_cancel' hle, Nat.mod_eq_of_lt h]
  · refine ⟨size + cell - home % size, by omega, ?_⟩
    rw [Nat.add_mod, Nat.mod_eq_of_lt (by omega : size + cell - home % size < size),
      show home % size + (size + cell - home % size) = cell + size by omega, Nat.add_mod_right,
      Nat.mod_eq_of_lt h]

end Probing
end Sword
