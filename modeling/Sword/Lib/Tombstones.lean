import Mathlib

/-!
# Open addressing with erasure

A cell that held a key and is erased must not end the search for the keys behind it, so it is
told apart from one that was never touched.

* `Cell` — a cell; `Keeps` — the cells keep a set of keys: each key lies in one cell, among
  the first ones of its probe sequence and behind none that was never touched.
* `Skipped` — a search has gone by these cells; `Skipped.not_mem_of_untouched` and
  `Skipped.not_mem_of_bound` — what it means where it ends.
* `Keeps.insert`, `Keeps.erase`, `Keeps.empty` — the operations on the cells.
* `Keeps.exists_open`, `Keeps.all_keys` — when some cell has room for a key.
-/

namespace Sword
namespace Tombstones

/-- A cell of a table. -/
inductive Cell (K : Type)
  /-- Never touched: searches end here. -/
  | untouched
  /-- The key that was here is erased: searches go on. -/
  | erased
  /-- Holds a key. -/
  | key (k : K)

variable {K C : Type} (seq : K → ℕ → C)

/-- The cells keep these keys. -/
structure Keeps (cells : C → Cell K) (bound : ℕ) (keys : Finset K) : Prop where
  mem_iff : ∀ k, k ∈ keys ↔ ∃ c, cells c = .key k
  once : ∀ c c' k, cells c = .key k → cells c' = .key k → c = c'
  reached : ∀ c k, cells c = .key k →
    ∃ d < bound, seq k d = c ∧ ∀ e < d, cells (seq k e) ≠ .untouched

/-- A search for the key has gone by the first cells of its sequence. -/
def Skipped (cells : C → Cell K) (k : K) (d : ℕ) : Prop :=
  ∀ e < d, cells (seq k e) ≠ .untouched ∧ cells (seq k e) ≠ .key k

variable {seq} {cells : C → Cell K} {bound d : ℕ} {keys : Finset K} {k : K} {c : C}

theorem keeps_empty (h : ∀ c k, cells c ≠ .key k) : Keeps seq cells bound ∅ where
  mem_iff k := iff_of_false (Finset.notMem_empty k) fun ⟨c, hc⟩ => h c k hc
  once c _ k hc _ := absurd hc (h c k)
  reached c k hc := absurd hc (h c k)

theorem Keeps.mono (h : Keeps seq cells bound keys) {bound' : ℕ} (hle : bound ≤ bound') :
    Keeps seq cells bound' keys where
  mem_iff := h.mem_iff
  once := h.once
  reached c k hc :=
    let ⟨d, hd, hseq, hpath⟩ := h.reached c k hc
    ⟨d, hd.trans_le hle, hseq, hpath⟩

/-! ## Searching -/

theorem skipped_zero : Skipped seq cells k 0 := fun e he => absurd he (Nat.not_lt_zero e)

theorem Skipped.succ (h : Skipped seq cells k d) (hne : cells (seq k d) ≠ .untouched)
    (hkey : cells (seq k d) ≠ .key k) : Skipped seq cells k (d + 1) := by
  intro e he
  rcases Nat.lt_succ_iff_lt_or_eq.1 he with he | rfl
  · exact h e he
  · exact ⟨hne, hkey⟩

/-- **A search that ends at a cell never touched.** -/
theorem Skipped.not_mem_of_untouched (h : Keeps seq cells bound keys)
    (hpassed : Skipped seq cells k d) (hc : cells (seq k d) = .untouched) : k ∉ keys := by
  rw [h.mem_iff]
  rintro ⟨c, hk⟩
  obtain ⟨e, -, rfl, hpath⟩ := h.reached c k hk
  rcases lt_trichotomy e d with hlt | rfl | hlt
  · exact (hpassed e hlt).2 hk
  · rw [hc] at hk
    cases hk
  · exact hpath d hlt hc

/-- **A search that ends at the bound.** -/
theorem Skipped.not_mem_of_bound (h : Keeps seq cells bound keys)
    (hpassed : Skipped seq cells k bound) : k ∉ keys := by
  rw [h.mem_iff]
  rintro ⟨c, hk⟩
  obtain ⟨e, he, rfl, -⟩ := h.reached c k hk
  exact (hpassed e he).2 hk

/-! ## Writing cells -/

section

variable [DecidableEq C]

/-- A write of anything but `untouched` leaves the paths to the keys. -/
theorem Keeps.path_update (h : Keeps seq cells bound keys) {x : Cell K} (hx : x ≠ .untouched)
    {c₀ : C} (hc : cells c₀ = .key k) : ∃ d < bound, seq k d = c₀ ∧
      ∀ e < d, Function.update cells c x (seq k e) ≠ .untouched := by
  obtain ⟨d, hd, hseq, hpath⟩ := h.reached c₀ k hc
  refine ⟨d, hd, hseq, fun e he => ?_⟩
  rw [Function.update_apply]
  split
  · exact hx
  · exact hpath e he

variable [DecidableEq K]

/-- **A key is put** into a cell of its sequence that holds none, with a bound that covers
it. -/
theorem Keeps.insert (h : Keeps seq cells bound keys) (hk : k ∉ keys)
    (hopen : ∀ k', cells (seq k d) ≠ .key k') (hpath : ∀ e < d, cells (seq k e) ≠ .untouched)
    {bound' : ℕ} (hd : d < bound') (hle : bound ≤ bound') :
    Keeps seq (Function.update cells (seq k d) (.key k)) bound' (insert k keys) where
  mem_iff k' := by
    rw [Finset.mem_insert, h.mem_iff]
    constructor
    · rintro (rfl | ⟨c, hc⟩)
      · exact ⟨_, Function.update_self ..⟩
      · refine ⟨c, ?_⟩
        rw [Function.update_of_ne, hc]
        rintro rfl
        exact hopen k' hc
    · rintro ⟨c, hc⟩
      rw [Function.update_apply] at hc
      split at hc
      · cases hc
        exact Or.inl rfl
      · exact Or.inr ⟨c, hc⟩
  once c c' k' hc hc' := by
    have hold : ∀ b, cells b ≠ .key k := fun b hb => hk ((h.mem_iff k).2 ⟨b, hb⟩)
    rw [Function.update_apply] at hc hc'
    split at hc
    · rename_i heq
      cases hc
      split at hc'
      · rename_i heq'
        rw [heq, heq']
      · exact absurd hc' (hold c')
    · split at hc'
      · cases hc'
        exact absurd hc (hold c)
      · exact h.once c c' k' hc hc'
  reached c k' hc := by
    rw [Function.update_apply] at hc
    split at hc
    · rename_i heq
      cases hc
      refine ⟨d, hd, heq.symm, fun e he => ?_⟩
      rw [Function.update_apply]
      split
      · exact nofun
      · exact hpath e he
    · exact (h.mono hle).path_update (x := .key k) nofun hc

/-- **A key is erased.** -/
theorem Keeps.erase (h : Keeps seq cells bound keys) (hc : cells c = .key k) :
    Keeps seq (Function.update cells c .erased) bound (keys.erase k) where
  mem_iff k' := by
    rw [Finset.mem_erase, h.mem_iff]
    constructor
    · rintro ⟨hne, c', hc'⟩
      refine ⟨c', ?_⟩
      rw [Function.update_of_ne, hc']
      rintro rfl
      rw [hc] at hc'
      cases hc'
      exact hne rfl
    · rintro ⟨c', hc'⟩
      rw [Function.update_apply] at hc'
      split at hc'
      · cases hc'
      · rename_i hne
        refine ⟨?_, c', hc'⟩
        rintro rfl
        exact hne (h.once c' c k' hc' hc)
  once c₁ c₂ k' h₁ h₂ := by
    rw [Function.update_apply] at h₁ h₂
    split at h₁
    · cases h₁
    · split at h₂
      · cases h₂
      · exact h.once c₁ c₂ k' h₁ h₂
  reached c' k' hc' := by
    rw [Function.update_apply] at hc'
    split at hc'
    · cases hc'
    · exact h.path_update (x := .erased) nofun hc'

end

/-! ## Room -/

/-- With fewer keys than cells, some cell holds none. -/
theorem Keeps.exists_open (h : Keeps seq cells bound keys) {cs : Finset C}
    (hlt : keys.card < cs.card) : ∃ c ∈ cs, ∀ k, cells c ≠ .key k := by
  by_contra hall
  refine Nat.not_le.2 hlt
    (Finset.card_le_card_of_forall_subsingleton (fun c k => cells c = .key k) ?_ ?_)
  · intro c hc
    by_contra hnone
    exact hall ⟨c, hc, fun k hk => hnone ⟨k, (h.mem_iff k).2 ⟨c, hk⟩, hk⟩⟩
  · rintro k - c ⟨-, hc⟩ c' ⟨-, hc'⟩
    exact h.once c c' k hc hc'

/-- There are no more keys than cells they lie in. -/
theorem Keeps.card_le (h : Keeps seq cells bound keys) {cs : Finset C}
    (hin : ∀ c k, cells c = .key k → c ∈ cs) : keys.card ≤ cs.card := by
  refine Finset.card_le_card_of_forall_subsingleton (fun k c => cells c = .key k) ?_ ?_
  · intro k hk
    obtain ⟨c, hc⟩ := (h.mem_iff k).1 hk
    exact ⟨c, hin c k hc, hc⟩
  · rintro c - k ⟨-, hk⟩ k' ⟨-, hk'⟩
    rw [hk] at hk'
    cases hk'
    rfl

/-- With as many keys as cells, every cell holds one. -/
theorem Keeps.all_keys [DecidableEq C] (h : Keeps seq cells bound keys) {cs : Finset C}
    (hin : ∀ c k, cells c = .key k → c ∈ cs) (hle : cs.card ≤ keys.card) {c : C} (hc : c ∈ cs) :
    ∃ k, cells c = .key k := by
  by_contra hnone
  have hrest : keys.card ≤ (cs.erase c).card := by
    refine h.card_le fun b k hb => Finset.mem_erase.2 ⟨?_, hin b k hb⟩
    rintro rfl
    exact hnone ⟨k, hb⟩
  have hpos := Finset.card_pos.2 ⟨c, hc⟩
  rw [Finset.card_erase_of_mem hc] at hrest
  omega

end Tombstones
end Sword
