import Mathlib

/-!
# Runs of a deterministic machine

A machine is a step function `σ → α → σ`; a run is a list of actions.  The rules
below are the ones every statement about whole runs rests on.

* `exec` — the state after a run; `exec_append` splits it.
* `Guarded` — every action of a run meets a condition on the state it is taken
  in; `guarded_append` splits it.
* `invariant` — what every step preserves, every run preserves.
* `invariant_of_guarded` — what every step meeting the condition preserves, every
  guarded run preserves.
* `iff_guarded` — when a property survives a step exactly if the step meets the
  condition, it survives a run exactly if the run is guarded.
* `prefixes_iff_guarded` — and it holds all along a run exactly if the run is guarded.
* `invariant_history` — the same for invariants that speak about the actions taken.
* `GuardedM`, `guardedM_append`, `invariant_guardedM` — the same for machines whose steps can
  fail: a guarded run does not; `guardedM_iff_guarded` — simulation by a machine that cannot fail.
* `each` — several machines side by side, an action of one leaving the others
  alone; `invariant_each` — what every guarded step of one machine preserves,
  every guarded interleaving preserves of each.
* `answers` — runs whose steps give answers; `answers_rel` — a refinement of the steps is
  one of the runs.
-/

namespace Sword
namespace Run

variable {σ α : Type} (step : σ → α → σ)

/-- The state after a run. -/
def exec (s : σ) (as : List α) : σ := as.foldl step s

@[simp] theorem exec_nil (s : σ) : exec step s [] = s := rfl

@[simp] theorem exec_cons (s : σ) (a : α) (as : List α) :
    exec step s (a :: as) = exec step (step s a) as := rfl

theorem exec_append (s : σ) (as bs : List α) :
    exec step s (as ++ bs) = exec step (exec step s as) bs := by
  simp [exec]

theorem exec_concat (s : σ) (as : List α) (a : α) :
    exec step s (as ++ [a]) = step (exec step s as) a := by
  simp [exec]

/-- Every action of the run meets the condition in the state it is taken in. -/
def Guarded (cond : σ → α → Prop) : σ → List α → Prop
  | _, [] => True
  | s, a :: as => cond s a ∧ Guarded cond (step s a) as

variable {step} {cond : σ → α → Prop}

instance decidableGuarded [∀ s a, Decidable (cond s a)] (s : σ) :
    (as : List α) → Decidable (Guarded step cond s as)
  | [] => isTrue trivial
  | a :: as =>
    have := decidableGuarded (step s a) as
    inferInstanceAs (Decidable (_ ∧ _))

theorem guarded_append {s : σ} {as bs : List α} :
    Guarded step cond s (as ++ bs) ↔
      Guarded step cond s as ∧ Guarded step cond (exec step s as) bs := by
  induction as generalizing s with
  | nil => simp [Guarded]
  | cons a as ih => simp [Guarded, ih, and_assoc]

/-- An invariant of the steps is an invariant of the runs. -/
theorem invariant {P : σ → Prop} (hstep : ∀ s a, P s → P (step s a)) {s : σ} (hs : P s)
    (as : List α) : P (exec step s as) := by
  induction as generalizing s with
  | nil => exact hs
  | cons a as ih => exact ih (hstep s a hs)

/-- An invariant of the steps that meet the condition is an invariant of the
guarded runs. -/
theorem invariant_of_guarded {P : σ → Prop} (hstep : ∀ s a, P s → cond s a → P (step s a))
    {s : σ} (hs : P s) {as : List α} (hg : Guarded step cond s as) : P (exec step s as) := by
  induction as generalizing s with
  | nil => exact hs
  | cons a as ih => exact ih (hstep s a hs hg.1) hg.2

/-- A property that survives a step exactly when the step meets the condition
survives a run exactly when the run is guarded. -/
theorem iff_guarded {I Q : σ → Prop} (hinv : ∀ s a, I s → I (step s a))
    (hstep : ∀ s a, I s → (Q (step s a) ↔ Q s ∧ cond s a)) {s : σ} (hi : I s) (as : List α) :
    Q (exec step s as) ↔ Q s ∧ Guarded step cond s as := by
  induction as generalizing s with
  | nil => simp [Guarded]
  | cons a as ih => rw [exec_cons, ih (hinv s a hi), hstep s a hi, Guarded, and_assoc]

/-- A property that holds under an invariant, and survives a step exactly when the step meets
the condition, holds all along a run exactly when the run is guarded. -/
theorem prefixes_iff_guarded {I Q : σ → Prop} {as : List α}
    (hinv : ∀ s, ∀ a ∈ as, I s → cond s a → I (step s a))
    (hstep : ∀ s, ∀ a ∈ as, I s → (Q (step s a) ↔ cond s a)) (hq : ∀ s, I s → Q s) {s : σ}
    (hi : I s) : (∀ pre, pre <+: as → Q (exec step s pre)) ↔ Guarded step cond s as := by
  induction as generalizing s with
  | nil =>
    refine iff_of_true (fun pre hpre => ?_) trivial
    rw [List.prefix_nil.1 hpre]
    exact hq s hi
  | cons a as ih =>
    have ih := @ih (fun s b hb => hinv s b (List.mem_cons_of_mem _ hb))
      (fun s b hb => hstep s b (List.mem_cons_of_mem _ hb))
    have ha : a ∈ a :: as := List.mem_cons_self
    rw [Guarded]
    constructor
    · intro hall
      have hcond := (hstep s a ha hi).1
        (hall [a] (List.prefix_cons_iff.2 (Or.inr ⟨[], rfl, List.nil_prefix⟩)))
      refine ⟨hcond, (ih (hinv s a ha hi hcond)).1 fun pre hpre => ?_⟩
      exact hall (a :: pre) (List.prefix_cons_iff.2 (Or.inr ⟨pre, rfl, hpre⟩))
    · rintro ⟨hcond, hg⟩ pre hpre
      rcases List.prefix_cons_iff.1 hpre with rfl | ⟨pre', rfl, hpre'⟩
      · exact hq s hi
      · exact (ih (hinv s a ha hi hcond)).2 hg pre' hpre'

/-- An invariant may speak about the actions taken so far. -/
theorem invariant_history {P : List α → σ → Prop}
    (hstep : ∀ done s a, P done s → cond s a → P (done ++ [a]) (step s a)) {done : List α} {s : σ}
    (hs : P done s) {as : List α} (hg : Guarded step cond s as) :
    P (done ++ as) (exec step s as) := by
  induction as generalizing done s with
  | nil => rwa [List.append_nil]
  | cons a as ih =>
    have h := ih (hstep done s a hs hg.1) hg.2
    rwa [List.append_assoc] at h

/-! ## Steps that can fail -/

section Partial

variable (stepM : σ → α → Option σ)

/-- Every action of the run meets the condition in the state it is taken in. -/
def GuardedM (cond : σ → α → Prop) : σ → List α → Prop
  | _, [] => True
  | s, a :: as => cond s a ∧ ∀ s' ∈ stepM s a, GuardedM cond s' as

variable {stepM}

instance decidableGuardedM [∀ s a, Decidable (cond s a)] (s : σ) :
    (as : List α) → Decidable (GuardedM stepM cond s as)
  | [] => isTrue trivial
  | a :: as =>
    have more (s' : σ) := decidableGuardedM s' as
    match hsome : stepM s a with
    | none => decidable_of_iff (cond s a) (by simp [GuardedM, hsome])
    | some s' => decidable_of_iff (cond s a ∧ GuardedM stepM cond s' as) (by
        simp [GuardedM, hsome])

theorem guardedM_append {s s' : σ} {as bs : List α} (h : as.foldlM stepM s = some s') :
    GuardedM stepM cond s (as ++ bs) ↔ GuardedM stepM cond s as ∧ GuardedM stepM cond s' bs := by
  induction as generalizing s with
  | nil =>
    cases h
    simp [GuardedM]
  | cons a as ih =>
    cases hsome : stepM s a with
    | none => simp [hsome] at h
    | some t =>
      rw [List.foldlM_cons, hsome] at h
      simp [GuardedM, hsome, ih h, and_assoc]

/-- A guarded run does not fail, if no guarded step does; and it keeps the
invariants of the guarded steps. -/
theorem invariant_guardedM {P : List α → σ → Prop}
    (hstep : ∀ done s a, P done s → cond s a → ∃ s', stepM s a = some s' ∧ P (done ++ [a]) s')
    {done : List α} {s : σ} (hs : P done s) {as : List α} (hg : GuardedM stepM cond s as) :
    ∃ s', as.foldlM stepM s = some s' ∧ P (done ++ as) s' := by
  induction as generalizing done s with
  | nil => exact ⟨s, rfl, by rwa [List.append_nil]⟩
  | cons a as ih =>
    obtain ⟨s', hsome, hs'⟩ := hstep done s a hs hg.1
    obtain ⟨s'', hrun, hs''⟩ := ih hs' (hg.2 s' hsome)
    refine ⟨s'', ?_, by rwa [List.append_assoc] at hs''⟩
    rw [List.foldlM_cons, hsome]
    exact hrun

/-- **Simulation.**  Where related states agree on the conditions, and steps that meet them do
not fail and lead to related states, one run is guarded exactly if the other is. -/
theorem guardedM_iff_guarded {τ : Type} {stepT : τ → α → τ} {condM : σ → α → Prop}
    {condT : τ → α → Prop} {R : σ → τ → Prop} {as : List α}
    (hcond : ∀ s t, ∀ a ∈ as, R s t → (condM s a ↔ condT t a))
    (hstep : ∀ s t, ∀ a ∈ as, R s t → condM s a → ∃ s', stepM s a = some s' ∧ R s' (stepT t a))
    {s : σ} {t : τ} (h : R s t) : GuardedM stepM condM s as ↔ Guarded stepT condT t as := by
  induction as generalizing s t with
  | nil => exact Iff.rfl
  | cons a as ih =>
    have ih := @ih (fun s t b hb => hcond s t b (List.mem_cons_of_mem _ hb))
      (fun s t b hb => hstep s t b (List.mem_cons_of_mem _ hb))
    have ha : a ∈ a :: as := List.mem_cons_self
    rw [GuardedM, Guarded, ← hcond s t a ha h]
    refine and_congr_right fun hc => ?_
    obtain ⟨s', hsome, hR⟩ := hstep s t a ha h hc
    rw [hsome, ← ih hR]
    constructor
    · exact fun hall => hall s' rfl
    · rintro hg s'' heq
      cases heq
      exact hg

end Partial

/-! ## Interleavings -/

section Each

variable {ι : Type} [DecidableEq ι]

/-- Machines side by side: an action is taken by one of them. -/
def each (step : σ → α → σ) (s : ι → σ) (e : ι × α) : ι → σ :=
  Function.update s e.1 (step (s e.1) e.2)

/-- The condition on an action, on the state of the machine that takes it. -/
def OnEach (cond : σ → α → Prop) (s : ι → σ) (e : ι × α) : Prop := cond (s e.1) e.2

/-- An invariant of the guarded steps of one machine is an invariant of each
machine in the guarded interleavings. -/
theorem invariant_each {P : σ → Prop} (hstep : ∀ s a, P s → cond s a → P (step s a))
    {s : ι → σ} (hs : ∀ i, P (s i)) {es : List (ι × α)}
    (hg : Guarded (each step) (OnEach cond) s es) (i : ι) : P (exec (each step) s es i) := by
  refine invariant_of_guarded (P := fun s : ι → σ => ∀ i, P (s i)) ?_ hs hg i
  intro s e hs hcond i
  by_cases hi : i = e.1
  · rw [hi, each, Function.update_self]
    exact hstep _ _ (hs e.1) hcond
  · rw [each, Function.update_of_ne hi]
    exact hs i

end Each

/-! ## Steps that answer -/

section Answers

variable {β : Type}

/-- A run of a machine whose steps can fail and give answers. -/
def answers (stepM : σ → α → Option (σ × β)) : σ → List α → Option (σ × List β)
  | s, [] => some (s, [])
  | s, a :: as => do
    let (s, b) ← stepM s a
    let (s, bs) ← answers stepM s as
    some (s, b :: bs)

/-- Every action of the run meets the condition in the state it is taken in. -/
def Meets (stepM : σ → α → Option (σ × β)) (cond : σ → α → Prop) : σ → List α → Prop
  | _, [] => True
  | s, a :: as => cond s a ∧ ∀ r ∈ stepM s a, Meets stepM cond r.1 as

/-- **Refinement.**  Where the steps of related states both fail, or give the same answer and
lead to related states, so do the runs. -/
theorem answers_rel {τ : Type} {stepS : σ → α → Option (σ × β)} {stepT : τ → α → Option (τ × β)}
    {condT : τ → α → Prop} {R : σ → τ → Prop}
    (hstep : ∀ s t a, R s t → condT t a →
      Option.Rel (fun x y => R x.1 y.1 ∧ x.2 = y.2) (stepS s a) (stepT t a))
    {s : σ} {t : τ} (h : R s t) {as : List α} (hmeets : Meets stepT condT t as) :
    Option.Rel (fun x y => R x.1 y.1 ∧ x.2 = y.2) (answers stepS s as) (answers stepT t as) := by
  induction as generalizing s t with
  | nil => exact .some ⟨h, rfl⟩
  | cons a as ih =>
    have hone := hstep s t a h hmeets.1
    have hmore := hmeets.2
    rw [answers, answers]
    generalize stepS s a = x at hone
    generalize stepT t a = y at hone hmore
    cases hone with
    | none => exact .none
    | @some x y hone =>
      obtain ⟨s', b⟩ := x
      obtain ⟨t', b'⟩ := y
      obtain ⟨hR, rfl⟩ := hone
      have hrest := ih hR (hmore _ rfl)
      simp only [Option.bind_eq_bind, Option.bind_some]
      generalize answers stepS s' as = xs at hrest
      generalize answers stepT t' as = ys at hrest
      cases hrest with
      | none => exact .none
      | some hrest => exact .some ⟨hrest.1, congrArg _ hrest.2⟩

end Answers

theorem guarded_and {cond' : σ → α → Prop} {s : σ} {as : List α} :
    Guarded step (fun s a => cond s a ∧ cond' s a) s as ↔
      Guarded step cond s as ∧ Guarded step cond' s as := by
  induction as generalizing s with
  | nil => simp [Guarded]
  | cons a as ih => simp only [Guarded, ih]; tauto

end Run
end Sword
