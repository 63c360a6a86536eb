import Mathlib

/-!
# Machines that stop

A program with labels and jumps is a partial step function on its states, as in Mathlib's
`StateTransition`: `none` is a step that goes wrong, or the end.  A loop without a bound needs
fuel to be a function; these are the rules that make the fuel disappear again.

* `run` — steps until the machine halts; `Reaches` — some steps.
* `run_of_reaches` — with a measure that every step lowers, fuel above the measure
  runs to whatever halting state can be reached.
* `mem_eval_of_run` — what a run with fuel ends with is what Mathlib's `eval` does.
* `map_eval_eq` — machines that respect a relation end with what looks the same, or both go on
  for ever.
-/

namespace Sword
namespace Machine

variable {σ : Type} (step : σ → Option σ) (halted : σ → Bool)

/-- Steps until the machine halts; `none` when a step goes wrong, or out of fuel. -/
def run : Nat → σ → Option σ
  | 0, _ => none
  | n + 1, s => if halted s then some s else step s >>= run n

/-- Some steps lead from one state to the other. -/
abbrev Reaches : σ → σ → Prop := StateTransition.Reaches step

variable {step halted} {m : σ → Nat}

theorem Reaches.refl (s : σ) : Reaches step s s := Relation.ReflTransGen.refl

theorem Reaches.trans {s t u : σ} (h : Reaches step s t) (h' : Reaches step t u) :
    Reaches step s u := Relation.ReflTransGen.trans h h'

theorem Reaches.of_step {s t : σ} (h : step s = some t) : Reaches step s t :=
  Relation.ReflTransGen.single h

theorem Reaches.step_trans {s t u : σ} (h : step s = some t) (h' : Reaches step t u) :
    Reaches step s u := (Reaches.of_step h).trans h'

/-- Fuel above the measure runs to the halting state that can be reached. -/
theorem run_of_reaches (hm : ∀ s s', step s = some s' → m s' < m s)
    (hhalt : ∀ s, halted s → step s = none) {s s' : σ} (h : Reaches step s s')
    (hs' : halted s') {n : Nat} (hn : m s < n) : run step halted n s = some s' := by
  induction h using Relation.ReflTransGen.head_induction_on generalizing n with
  | refl =>
    obtain ⟨n, rfl⟩ := Nat.exists_eq_succ_of_ne_zero (Nat.ne_zero_of_lt hn)
    simp [run, hs']
  | @head s t hstep _ ih =>
    obtain ⟨n, rfl⟩ := Nat.exists_eq_succ_of_ne_zero (Nat.ne_zero_of_lt hn)
    have hs : halted s = false := by
      by_contra hs
      rw [hhalt s (by simpa using hs)] at hstep
      cases hstep
    have := hm s t hstep
    rw [run, hs, hstep]
    exact ih (by omega)

/-- A run that ends ends where evaluation does. -/
theorem mem_eval_of_run {n : Nat} {s s' : σ}
    (h : run step (fun s => (step s).isNone) n s = some s') : s' ∈ StateTransition.eval step s := by
  induction n generalizing s with
  | zero => cases h
  | succ n ih =>
    rw [run] at h
    cases hs : step s with
    | none =>
      rw [hs] at h
      cases h
      exact StateTransition.mem_eval.2 ⟨Reaches.refl _, hs⟩
    | some t =>
      rw [hs] at h
      rw [StateTransition.reaches_eval (Reaches.of_step hs)]
      exact ih h

/-- **Simulation.**  What is seen at the end is the same, and if one machine does not end, the
other does not. -/
theorem map_eval_eq {τ β : Type} {stepS : σ → Option σ} {stepT : τ → Option τ} {R : σ → τ → Prop}
    (hR : StateTransition.Respects stepS stepT R) {seenS : σ → β} {seenT : τ → β}
    (hseen : ∀ s t, R s t → stepS s = none → seenS s = seenT t) {s : σ} {t : τ} (h : R s t) :
    (StateTransition.eval stepT t).map seenT = (StateTransition.eval stepS s).map seenS := by
  refine Part.ext fun b => ?_
  rw [Part.mem_map_iff, Part.mem_map_iff]
  constructor
  · rintro ⟨t', ht', rfl⟩
    obtain ⟨s', hR', hs'⟩ := StateTransition.tr_eval_rev hR h ht'
    exact ⟨s', hs', hseen s' t' hR' (StateTransition.mem_eval.1 hs').2⟩
  · rintro ⟨s', hs', rfl⟩
    obtain ⟨t', hR', ht'⟩ := StateTransition.tr_eval hR h hs'
    exact ⟨t', ht', (hseen s' t' hR' (StateTransition.mem_eval.1 hs').2).symm⟩

end Machine
end Sword
