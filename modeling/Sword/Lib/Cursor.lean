import Mathlib

/-!
# Loops over cursors

A loop `for (s = first; s; s = next(s))` has no list to run over: `next` finds each cursor
from the one before.

* `Leads` — `next` leads from each cursor of a list to the one behind it, and from the last
  one to where the loop goes on; `leads_append` splits it.
* `follow` — the cursors such a loop is at; `follow_eq` — they are those of the list.
* `Rests` — what is still to come at each cursor of a list.
* `leads_filter` — a `next` that goes to the first cursor still to come that meets a condition
  leads along those of the list that do.
-/

namespace Sword
namespace Cursor

variable {σ : Type} {next : σ → Option σ} {rest : σ → List σ}

/-- `next` leads along the list, and from its last cursor to `stop`. -/
def Leads (next : σ → Option σ) : List σ → Option σ → Prop
  | [], _ => True
  | s :: xs, stop => next s = xs.head?.or stop ∧ Leads next xs stop

theorem leads_append {xs ys : List σ} {stop : Option σ} :
    Leads next (xs ++ ys) stop ↔ Leads next xs (ys.head?.or stop) ∧ Leads next ys stop := by
  induction xs with
  | nil => simp [Leads]
  | cons s xs ih =>
    rw [List.cons_append, Leads, Leads, ih, List.head?_append, Option.or_assoc]
    exact and_assoc.symm

/-- The cursors that a loop is at, in so many turns at most. -/
def follow (next : σ → Option σ) : ℕ → Option σ → List σ
  | 0, _ => []
  | _ + 1, none => []
  | turns + 1, some s => s :: follow next turns (next s)

/-- **The loop** goes along the list and ends. -/
theorem follow_eq {xs : List σ} (h : Leads next xs none) {turns : ℕ} (hturns : xs.length ≤ turns) :
    follow next turns xs.head? = xs := by
  induction xs generalizing turns with
  | nil => cases turns <;> rfl
  | cons s xs ih =>
    obtain ⟨turns, rfl⟩ := Nat.exists_eq_add_of_lt (Nat.lt_of_lt_of_le (Nat.succ_pos _) hturns)
    rw [Nat.zero_add, List.head?_cons, follow, h.1, Option.or_none, ih h.2 (by simpa using hturns)]

/-- At each cursor of the list, the others behind it are still to come, and then `ys`. -/
def Rests (rest : σ → List σ) : List σ → List σ → Prop
  | [], _ => True
  | s :: xs, ys => rest s = xs ++ ys ∧ Rests rest xs ys

theorem rests_append {xs ys zs : List σ} :
    Rests rest (xs ++ ys) zs ↔ Rests rest xs (ys ++ zs) ∧ Rests rest ys zs := by
  induction xs with
  | nil => simp [Rests]
  | cons s xs ih => simp [Rests, ih, and_assoc]

/-- **A loop that skips cursors.** -/
theorem leads_filter {p : σ → Bool} {xs : List σ} (h : Rests rest xs [])
    (hnext : ∀ s ∈ xs, p s → next s = ((rest s).filter p).head?) :
    Leads next (xs.filter p) none := by
  induction xs with
  | nil => trivial
  | cons s xs ih =>
    obtain ⟨hrest, h⟩ := h
    have hleads := ih h fun s hs => hnext s (List.mem_cons_of_mem _ hs)
    rw [List.filter_cons]
    split
    · rename_i hp
      refine ⟨?_, hleads⟩
      rw [hnext s List.mem_cons_self hp, hrest, List.append_nil, Option.or_none]
    · exact hleads

/-- A loop that skips none. -/
theorem leads_of_rests {xs : List σ} (h : Rests rest xs [])
    (hnext : ∀ s ∈ xs, next s = (rest s).head?) : Leads next xs none := by
  rw [← List.filter_true xs]
  refine leads_filter h fun s hs _ => ?_
  rw [hnext s hs, List.filter_true]

end Cursor
end Sword
