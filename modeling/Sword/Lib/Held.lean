import Mathlib

/-!
# Sets driven by acquire and release operations

A set starts somewhere and is changed by operations that put an element in or
take one out.  For a single element the last operation on it decides; an element
no operation touches stays as it was.

* `after` — the set after a sequence of operations.
* `Touched` — the elements some operation is about.
* `mem_after_iff` — what is in the set after starting anywhere, in terms of what
  is in it after starting with nothing.
* `after_eq_iff` — the starting point is forgotten exactly if everything in it
  has been touched.
-/

namespace Sword
namespace Held

variable {α : Type} [DecidableEq α]

/-- One operation. -/
inductive Op (α : Type)
  | acquire (a : α)
  | release (a : α)

/-- The element an operation is about. -/
def Op.arg : Op α → α
  | .acquire a => a
  | .release a => a

/-- What an operation does to the set. -/
def apply (s : Finset α) : Op α → Finset α
  | .acquire a => insert a s
  | .release a => s.erase a

/-- The set after a sequence of operations. -/
def after (s : Finset α) (ops : List (Op α)) : Finset α := ops.foldl apply s

/-- Some operation of the sequence is about the element. -/
def Touched (a : α) (ops : List (Op α)) : Prop := ∃ op ∈ ops, op.arg = a

@[simp] theorem after_nil (s : Finset α) : after s [] = s := rfl

@[simp] theorem after_cons (s : Finset α) (op : Op α) (ops : List (Op α)) :
    after s (op :: ops) = after (apply s op) ops := rfl

theorem mem_apply_of_ne {s : Finset α} {op : Op α} {a : α} (h : op.arg ≠ a) :
    a ∈ apply s op ↔ a ∈ s := by
  cases op with
  | acquire b => simp [apply, Ne.symm (show b ≠ a from h)]
  | release b => simp [apply, Ne.symm (show b ≠ a from h)]

/-- The operation decides about its own element, whatever the set was. -/
theorem mem_apply_arg (s t : Finset α) (op : Op α) : op.arg ∈ apply s op ↔ op.arg ∈ apply t op := by
  cases op <;> simp [apply, Op.arg]

/-- For one element, two starting points that agree on it stay in agreement. -/
theorem mem_after_congr {s t : Finset α} {a : α} (h : a ∈ s ↔ a ∈ t) (ops : List (Op α)) :
    a ∈ after s ops ↔ a ∈ after t ops := by
  induction ops generalizing s t with
  | nil => exact h
  | cons op ops ih =>
    refine ih ?_
    by_cases ha : op.arg = a
    · rw [← ha]; exact mem_apply_arg s t op
    · rw [mem_apply_of_ne ha, mem_apply_of_ne ha]; exact h

theorem mem_after_of_not_touched {s : Finset α} {a : α} {ops : List (Op α)}
    (h : ¬ Touched a ops) : a ∈ after s ops ↔ a ∈ s := by
  induction ops generalizing s with
  | nil => rfl
  | cons op ops ih =>
    have hne : op.arg ≠ a := fun he => h ⟨op, List.mem_cons_self, he⟩
    have hrest : ¬ Touched a ops := fun ⟨o, ho, he⟩ => h ⟨o, List.mem_cons_of_mem _ ho, he⟩
    rw [after_cons, ih hrest, mem_apply_of_ne hne]

theorem mem_after_of_touched {a : α} {ops : List (Op α)} (h : Touched a ops) (s t : Finset α) :
    a ∈ after s ops ↔ a ∈ after t ops := by
  induction ops generalizing s t with
  | nil => obtain ⟨op, hop, -⟩ := h; cases hop
  | cons op ops ih =>
    obtain ⟨o, ho, he⟩ := h
    rcases List.mem_cons.1 ho with rfl | ho
    · refine mem_after_congr ?_ ops
      rw [← he]
      exact mem_apply_arg s t o
    · exact ih ⟨o, ho, he⟩ (apply s op) (apply t op)

/-- An element is in the set after the operations if they leave it in a set that
started with nothing, or if it was there and no operation is about it. -/
theorem mem_after_iff {s : Finset α} {a : α} {ops : List (Op α)} :
    a ∈ after s ops ↔ a ∈ after ∅ ops ∨ (a ∈ s ∧ ¬ Touched a ops) := by
  by_cases h : Touched a ops
  · simp [h, mem_after_of_touched h s ∅]
  · simp [h, mem_after_of_not_touched h]

/-- The starting point makes no difference exactly if every element of it has
been touched. -/
theorem after_eq_iff {s : Finset α} {ops : List (Op α)} :
    after s ops = after ∅ ops ↔ ∀ a ∈ s, Touched a ops := by
  constructor
  · intro h a ha
    by_contra hnot
    have hmem : a ∈ after s ops := mem_after_iff.2 (Or.inr ⟨ha, hnot⟩)
    rw [h, mem_after_of_not_touched hnot] at hmem
    simp at hmem
  · intro h
    ext a
    rw [mem_after_iff]
    constructor
    · rintro (h1 | ⟨ha, hnot⟩)
      · exact h1
      · exact absurd (h a ha) hnot
    · exact Or.inl

end Held
end Sword
