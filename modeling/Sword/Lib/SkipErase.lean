import Mathlib

/-!
# Erasing from the list one iterates over

A loop erases elements from the list it goes through and increments its iterator all the
same, so that it passes over the element behind an erased one.  It is run again and again
over a list to which elements are appended in between.

* `eraseLoop` — the loop; `eraseRounds` — a list of rounds, each of which appends elements
  and runs the loop.
* `sift` — the elements left, found in one pass: every element of round `k` weighs `2 ^ k`,
  and in a run of elements to be erased one is left wherever the weight of the run so far
  goes past a multiple of `2 ^ m`, after `m` rounds.
* `eraseRounds_eq` — the rounds leave these elements.
* `mem_sift_iff` — which elements these are.
* `sift_eq_filter_iff` — nothing is left that ought to be erased exactly if every run weighs
  less than `2 ^ m`.
-/

namespace Sword
namespace SkipErase

variable {α : Type} (p : α → Bool)

/-! ## The loop -/

/-- The loop, from a position on. -/
def eraseLoop (it : ℕ) (xs : List α) : List α :=
  if h : it < xs.length then
    if p xs[it] then eraseLoop (it + 1) (xs.eraseIdx it) else eraseLoop (it + 1) xs
  else xs
termination_by xs.length - it
decreasing_by
  · rw [List.length_eraseIdx_of_lt h]
    omega
  · omega

/-- The rounds: each appends elements and goes through the whole list. -/
def eraseRounds (xs : List α) (rounds : List (List α)) : List α :=
  rounds.foldl (fun xs round => eraseLoop p 0 (xs ++ round)) xs

/-! ## One pass for all rounds -/

/-- The weight of the run that ends with an element. -/
def grow (w : ℕ) (x : α × ℕ) : ℕ := if p x.1 then w + 2 ^ x.2 else 0

/-- The weight of the run at the end of a list. -/
def runWeight (w : ℕ) (xs : List (α × ℕ)) : ℕ := xs.foldl (grow p) w

/-- The elements left after `m` rounds, of a list with the round of each element. -/
def sift (m : ℕ) : ℕ → List (α × ℕ) → List α
  | _, [] => []
  | w, x :: xs =>
    if p x.1 ∧ (w + 2 ^ x.2) / 2 ^ m = w / 2 ^ m then sift m (grow p w x) xs
    else x.1 :: sift m (grow p w x) xs

/-- The elements of the rounds, with their rounds. -/
def numbered : ℕ → List (List α) → List (α × ℕ)
  | _, [] => []
  | k, round :: rounds => round.map (fun x => (x, k)) ++ numbered (k + 1) rounds

variable {p} {m w k : ℕ} {xs : List (α × ℕ)} {x : α}

theorem grow_of_pos (hp : p x) : grow p w (x, k) = w + 2 ^ k := if_pos hp

theorem grow_of_neg (hp : ¬ p x) : grow p w (x, k) = 0 := if_neg hp

theorem sift_append (ys : List (α × ℕ)) :
    sift p m w (xs ++ ys) = sift p m w xs ++ sift p m (runWeight p w xs) ys := by
  induction xs generalizing w with
  | nil => rfl
  | cons x xs ih =>
    rw [List.cons_append, sift, sift, ih]
    split
    · rfl
    · rfl

/-- Only the weight up to multiples of `2 ^ m` matters. -/
theorem sift_add : sift p m (w + 2 ^ m) xs = sift p m w xs := by
  induction xs generalizing w with
  | nil => rfl
  | cons x xs ih =>
    obtain ⟨x, k⟩ := x
    have hpos : 0 < 2 ^ m := Nat.two_pow_pos m
    have hcross : (w + 2 ^ m + 2 ^ k) / 2 ^ m = (w + 2 ^ m) / 2 ^ m ↔
        (w + 2 ^ k) / 2 ^ m = w / 2 ^ m := by
      rw [add_right_comm, Nat.add_div_right _ hpos, Nat.add_div_right _ hpos]
      exact Nat.succ_inj
    have hrest : sift p m (grow p (w + 2 ^ m) (x, k)) xs = sift p m (grow p w (x, k)) xs := by
      by_cases hp : p x
      · rw [grow_of_pos hp, grow_of_pos hp, add_right_comm, ih]
      · rw [grow_of_neg hp, grow_of_neg hp]
    simp only [sift, hrest, hcross]

/-- A round leaves what it has appended until it goes through the list. -/
theorem sift_last (round : List α) : sift p m w (round.map fun x => (x, m)) = round := by
  induction round generalizing w with
  | nil => rfl
  | cons x round ih =>
    have hcross : ¬ (p x ∧ (w + 2 ^ m) / 2 ^ m = w / 2 ^ m) := by
      rw [Nat.add_div_right _ (Nat.two_pow_pos m)]
      exact fun h => Nat.succ_ne_self _ h.2
    rw [List.map_cons, sift, if_neg hcross, ih]

/-- The element behind an erased one stays. -/
theorem sift_behind (xs : List α) : sift p 1 1 (xs.map fun x => (x, 0)) =
    xs.take 1 ++ sift p 1 0 ((xs.drop 1).map fun x => (x, 0)) := by
  cases xs with
  | nil => rfl
  | cons x xs =>
    have hrest : sift p 1 (grow p 1 (x, 0)) (xs.map fun x => (x, 0)) =
        sift p 1 0 (xs.map fun x => (x, 0)) := by
      by_cases hp : p x
      · rw [grow_of_pos hp]
        exact sift_add (w := 0)
      · rw [grow_of_neg hp]
    have hcross : ¬ (p x ∧ (1 + 2 ^ 0) / 2 ^ 1 = 1 / 2 ^ 1) := fun h => absurd h.2 (by decide)
    rw [List.map_cons, sift, if_neg hcross, hrest]
    rfl

/-- The loop is the pass after one round. -/
theorem eraseLoop_eq (it : ℕ) (xs : List α) :
    eraseLoop p it xs = xs.take it ++ sift p 1 0 ((xs.drop it).map fun x => (x, 0)) := by
  induction it, xs using eraseLoop.induct p with
  | case1 it xs h hp ih =>
    have hlen : (xs.take it).length = it := List.length_take_of_le h.le
    have htake : (xs.eraseIdx it).take (it + 1) = xs.take it ++ (xs.drop (it + 1)).take 1 := by
      rw [List.eraseIdx_eq_take_drop_succ, List.take_append, hlen, Nat.add_sub_cancel_left,
        List.take_of_length_le (hlen.trans_le it.le_succ)]
    have hdrop : (xs.eraseIdx it).drop (it + 1) = (xs.drop (it + 1)).drop 1 := by
      rw [List.eraseIdx_eq_take_drop_succ, List.drop_append, hlen, Nat.add_sub_cancel_left,
        List.drop_of_length_le (hlen.trans_le it.le_succ), List.nil_append]
    have hmet : sift p 1 0 ((xs.drop it).map fun x => (x, 0)) =
        sift p 1 1 ((xs.drop (it + 1)).map fun x => (x, 0)) := by
      have hcross : p xs[it] ∧ (0 + 2 ^ 0) / 2 ^ 1 = 0 / 2 ^ 1 := ⟨hp, by decide⟩
      rw [List.drop_eq_getElem_cons h, List.map_cons, sift, if_pos hcross, grow_of_pos hp]
      rfl
    rw [eraseLoop, dif_pos h, if_pos hp, ih, htake, hdrop, hmet, sift_behind, List.append_assoc]
  | case2 it xs h hp ih =>
    have hmet : sift p 1 0 ((xs.drop it).map fun x => (x, 0)) =
        xs[it] :: sift p 1 0 ((xs.drop (it + 1)).map fun x => (x, 0)) := by
      rw [List.drop_eq_getElem_cons h, List.map_cons, sift, if_neg (fun h => hp h.1),
        grow_of_neg hp]
    rw [eraseLoop, dif_pos h, if_neg hp, ih, hmet, List.take_add_one, List.getElem?_eq_getElem h,
      List.append_assoc]
    rfl
  | case3 it xs h =>
    rw [eraseLoop, dif_neg h, List.take_of_length_le (not_lt.1 h),
      List.drop_of_length_le (not_lt.1 h)]
    exact (List.append_nil xs).symm

/-- An element weighs at most `2 ^ m`. -/
theorem div_of_le (hk : k ≤ m) :
    (w + 2 ^ k) / 2 ^ m = w / 2 ^ m ∨ (w + 2 ^ k) / 2 ^ m = w / 2 ^ m + 1 := by
  have hpow : 2 ^ k ≤ 2 ^ m := Nat.pow_le_pow_right (by decide) hk
  have hlow : w / 2 ^ m ≤ (w + 2 ^ k) / 2 ^ m := Nat.div_le_div_right (Nat.le_add_right _ _)
  have hhigh : (w + 2 ^ k) / 2 ^ m ≤ (w + 2 ^ m) / 2 ^ m :=
    Nat.div_le_div_right (Nat.add_le_add_left hpow w)
  rw [Nat.add_div_right _ (Nat.two_pow_pos m)] at hhigh
  omega

/-- One more round. -/
theorem sift_sift (hle : ∀ x ∈ xs, x.2 ≤ m) :
    sift p 1 (w / 2 ^ m) ((sift p m w xs).map fun x => (x, 0)) = sift p (m + 1) w xs := by
  induction xs generalizing w with
  | nil => rfl
  | cons x xs ih =>
    obtain ⟨x, k⟩ := x
    have ih := @ih (grow p w (x, k)) fun y hy => hle y (List.mem_cons_of_mem _ hy)
    have hhalf : ∀ a, a / 2 ^ (m + 1) = a / 2 ^ m / 2 ^ 1 := fun a => by
      rw [pow_add, Nat.div_div_eq_div_mul]
    by_cases hp : p x
    · rw [grow_of_pos hp] at ih
      rcases div_of_le (w := w) (hle (x, k) List.mem_cons_self) with hnext | hnext
      · rw [sift, if_pos ⟨hp, hnext⟩, sift, hhalf, hhalf, hnext, if_pos ⟨hp, rfl⟩, grow_of_pos hp,
          ← ih, hnext]
      · have hcross : ¬ (p x ∧ (w + 2 ^ k) / 2 ^ m = w / 2 ^ m) := fun h =>
          Nat.succ_ne_self _ (hnext.symm.trans h.2)
        rw [sift, if_neg hcross, List.map_cons, sift, sift, hhalf, hhalf, hnext, grow_of_pos hp,
          grow_of_pos hp, ← ih, hnext]
        rfl
    · have hcross : ∀ a b : ℕ, ¬ (p x ∧ a = b) := fun _ _ h => hp h.1
      rw [grow_of_neg hp, Nat.zero_div] at ih
      rw [sift, if_neg (hcross _ _), List.map_cons, sift, if_neg (hcross _ _), sift,
        if_neg (hcross _ _), grow_of_neg hp, grow_of_neg hp, ih]

theorem numbered_concat (round : List α) (rounds : List (List α)) :
    numbered k (rounds ++ [round]) =
      numbered k rounds ++ round.map fun x => (x, k + rounds.length) := by
  induction rounds generalizing k with
  | nil => simp [numbered]
  | cons r rounds ih =>
    rw [List.cons_append, numbered, ih, numbered, List.append_assoc, List.length_cons]
    simp only [Nat.add_assoc, Nat.add_comm 1]

theorem lt_of_mem_numbered {rounds : List (List α)} {y : α × ℕ} (h : y ∈ numbered k rounds) :
    y.2 < k + rounds.length := by
  induction rounds generalizing k with
  | nil => cases h
  | cons r rounds ih =>
    rw [List.length_cons]
    rcases List.mem_append.1 h with h | h
    · obtain ⟨x, -, rfl⟩ := List.mem_map.1 h
      show k < _
      omega
    · have := ih h
      omega

theorem map_fst_numbered (rounds : List (List α)) :
    (numbered k rounds).map Prod.fst = rounds.flatten := by
  induction rounds generalizing k with
  | nil => rfl
  | cons r rounds ih =>
    rw [numbered, List.map_append, ih, List.map_map, List.flatten_cons]
    exact congrArg (· ++ _) (List.map_id r)

/-- **The rounds in one pass.** -/
theorem eraseRounds_eq (rounds : List (List α)) :
    eraseRounds p [] rounds = sift p rounds.length 0 (numbered 0 rounds) := by
  induction rounds using List.reverseRecOn with
  | nil => rfl
  | append_singleton rounds round ih =>
    have hround : eraseRounds p [] rounds ++ round =
        sift p rounds.length 0 (numbered 0 (rounds ++ [round])) := by
      rw [numbered_concat, sift_append, Nat.zero_add, sift_last, ih]
    have hle : ∀ x ∈ numbered 0 (rounds ++ [round]), x.2 ≤ rounds.length := by
      intro x hx
      have := lt_of_mem_numbered hx
      rw [List.length_append, List.length_singleton] at this
      omega
    have hzero : 0 / 2 ^ rounds.length = 0 := Nat.zero_div _
    calc eraseRounds p [] (rounds ++ [round])
        = eraseLoop p 0 (eraseRounds p [] rounds ++ round) := by
          simp only [eraseRounds, List.foldl_append, List.foldl_cons, List.foldl_nil]
      _ = sift p 1 0 ((sift p rounds.length 0 (numbered 0 (rounds ++ [round]))).map
            fun x => (x, 0)) := by
          rw [eraseLoop_eq, hround]
          rfl
      _ = sift p (rounds.length + 1) 0 (numbered 0 (rounds ++ [round])) := by
          rw [← sift_sift hle, hzero]
      _ = _ := by rw [List.length_append, List.length_singleton]

/-! ## What is left -/

/-- An element that is not to be erased is left, and one that is where the weight of its run
goes past a multiple of `2 ^ m`. -/
theorem mem_sift_iff : x ∈ sift p m w xs ↔ ∃ before k behind, xs = before ++ (x, k) :: behind ∧
    (p x → (runWeight p w before + 2 ^ k) / 2 ^ m ≠ runWeight p w before / 2 ^ m) := by
  induction xs generalizing w with
  | nil => simp [sift]
  | cons y xs ih =>
    obtain ⟨y, k⟩ := y
    have hmem : x ∈ sift p m w ((y, k) :: xs) ↔
        (x = y ∧ (p x → (w + 2 ^ k) / 2 ^ m ≠ w / 2 ^ m)) ∨ x ∈ sift p m (grow p w (y, k)) xs := by
      rw [sift]
      split
      · rename_i hcross
        refine ⟨Or.inr, fun h => h.resolve_left ?_⟩
        rintro ⟨rfl, hne⟩
        exact hne hcross.1 hcross.2
      · rename_i hcross
        rw [List.mem_cons]
        refine or_congr_left ⟨?_, And.left⟩
        rintro rfl
        exact ⟨rfl, fun hp heq => hcross ⟨hp, heq⟩⟩
    rw [hmem, ih]
    constructor
    · rintro (⟨rfl, hx⟩ | ⟨before, k', behind, rfl, hx⟩)
      · exact ⟨[], k, xs, rfl, hx⟩
      · exact ⟨(y, k) :: before, k', behind, rfl, hx⟩
    · rintro ⟨before, k', behind, heq, hx⟩
      cases before with
      | nil =>
        cases heq
        exact Or.inl ⟨rfl, hx⟩
      | cons z before =>
        cases heq
        exact Or.inr ⟨before, k', behind, rfl, hx⟩

/-- Nothing is erased that ought to be left. -/
theorem filter_sift : (sift p m w xs).filter (fun x => !p x) =
    (xs.map Prod.fst).filter fun x => !p x := by
  induction xs generalizing w with
  | nil => rfl
  | cons x xs ih =>
    rw [sift, List.map_cons]
    split
    · rename_i hcross
      rw [ih, List.filter_cons_of_neg (by simp [hcross.1])]
    · rw [List.filter_cons, List.filter_cons, ih]

/-- The weight of some elements. -/
def weight (xs : List (α × ℕ)) : ℕ := (xs.map fun x => 2 ^ x.2).sum

theorem weight_concat : weight (xs ++ [(x, k)]) = weight xs + 2 ^ k := by
  simp [weight]

theorem runWeight_concat : runWeight p w (xs ++ [(x, k)]) = grow p (runWeight p w xs) (x, k) := by
  simp [runWeight]

/-- The run at the end of a list. -/
theorem exists_run (xs : List (α × ℕ)) :
    ∃ before run, xs = before ++ run ∧ (∀ x ∈ run, p x.1) ∧ weight run = runWeight p 0 xs := by
  induction xs using List.reverseRecOn with
  | nil => exact ⟨[], [], rfl, fun _ h => (List.not_mem_nil h).elim, rfl⟩
  | append_singleton xs x ih =>
    obtain ⟨x, k⟩ := x
    by_cases hp : p x
    · obtain ⟨before, run, rfl, hrun, hw⟩ := ih
      refine ⟨before, run ++ [(x, k)], List.append_assoc .., ?_, ?_⟩
      · exact List.forall_mem_append.2 ⟨hrun, List.forall_mem_singleton.2 hp⟩
      · rw [weight_concat, hw, runWeight_concat, grow_of_pos hp]
    · refine ⟨xs ++ [(x, k)], [], (List.append_nil _).symm,
        fun _ h => (List.not_mem_nil h).elim, ?_⟩
      rw [runWeight_concat, grow_of_neg hp]
      rfl

/-- It is the heaviest one that ends there. -/
theorem weight_le_runWeight {run : List (α × ℕ)} (hrun : ∀ x ∈ run, p x.1) :
    weight run ≤ runWeight p 0 (xs ++ run) := by
  induction run using List.reverseRecOn with
  | nil => exact Nat.zero_le _
  | append_singleton run x ih =>
    obtain ⟨x, k⟩ := x
    have ih := ih fun y hy => hrun y (List.mem_append_left _ hy)
    rw [← List.append_assoc, runWeight_concat, weight_concat,
      grow_of_pos (hrun (x, k) (List.mem_append_right _ List.mem_cons_self))]
    exact Nat.add_le_add_right ih _

/-- **Nothing too much is left** exactly if every run weighs less than `2 ^ m`. -/
theorem sift_eq_filter_iff : sift p m 0 xs = (xs.map Prod.fst).filter (fun x => !p x) ↔
    ∀ run, run <:+: xs → (∀ x ∈ run, p x.1) → weight run < 2 ^ m := by
  rw [← filter_sift (m := m) (w := 0), eq_comm, List.filter_eq_self]
  constructor
  · rintro hleft run ⟨before, behind, rfl⟩ hrun
    have hlight : ∀ pre, pre <+: before ++ run ++ behind → runWeight p 0 pre < 2 ^ m := by
      intro pre
      induction pre using List.reverseRecOn with
      | nil => exact fun _ => Nat.two_pow_pos m
      | append_singleton pre x ih =>
        rintro ⟨rest, hrest⟩
        obtain ⟨x, k⟩ := x
        rw [List.append_assoc] at hrest
        have ih := ih ⟨_, hrest⟩
        rw [runWeight_concat]
        by_cases hp : p x
        · rw [grow_of_pos hp]
          by_contra hheavy
          have hcross : x ∈ sift p m 0 (before ++ run ++ behind) := by
            refine mem_sift_iff.2 ⟨pre, k, rest, hrest.symm, fun _ heq => hheavy ?_⟩
            rw [Nat.div_eq_of_lt ih] at heq
            exact (Nat.div_eq_zero_iff_lt (Nat.two_pow_pos m)).1 heq
          have := hleft x hcross
          rw [hp] at this
          cases this
        · rw [grow_of_neg hp]
          exact Nat.two_pow_pos m
    exact (weight_le_runWeight hrun).trans_lt (hlight _ (List.prefix_append _ _))
  · intro hlight x hx
    obtain ⟨before, k, behind, rfl, hcross⟩ := mem_sift_iff.1 hx
    cases hp : p x with
    | false => rfl
    | true =>
      obtain ⟨front, run, rfl, hrun, hw⟩ := exists_run (p := p) before
      have hlast := hlight (run ++ [(x, k)]) ⟨front, behind, by simp⟩
        (List.forall_mem_append.2 ⟨hrun, List.forall_mem_singleton.2 hp⟩)
      rw [weight_concat, hw] at hlast
      refine absurd ?_ (hcross hp)
      rw [Nat.div_eq_of_lt hlast, Nat.div_eq_of_lt (lt_of_le_of_lt (Nat.le_add_right _ _) hlast)]

end SkipErase
end Sword
