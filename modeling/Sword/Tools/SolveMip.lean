import Sword.Tools.IntervalTree

/-!
# Do two nodes share a byte: `solve_mip`

The question whether two progressions of accesses have a byte in common is handed
to GLPK as an integer program.  GLPK is a parameter here: three functions on
programs, with what its manual says about them.

* `MipProblem`, `problem` — the program `solve_mip` builds: the row holds a double,
  and the columns that count elements run up to `count`, not `count - 1`.
* `Glpk`, `Documented`, `solveMip` — the calls, and the answer.
* `Glpk.exhaustive` — a GLPK that tries all solutions, and is as documented.
* `SharesByte` — the question asked.
* `feasible_within_iff` — the program with the columns cut to `count - 1` answers
  it, if the row did not have to be rounded.
* `rowExact_iff` — it did not, exactly if the distance of the starts is a `long int` of at most
  53 significant bits.
* `Touch`, `MipSafe`, `solveMip_exact_iff` — which elements decide whether the answer of
  `solve_mip` is right: those of the nodes, and the one that would come next in each; for starts
  whose distance is no `long int`, around the end of the address space as well.
-/

namespace Sword
namespace Tools

open Progression

/-! ## Integer programs -/

/-- An integer column between 0 and `upper` (`GLP_DB`, `GLP_IV`): its coefficient in
the row, and in the objective function. -/
structure Column where
  upper : ℕ
  coefficient : ℤ
  objective : ℤ := 0
  deriving DecidableEq, Repr

/-- The program of `solve_mip`: one row with a fixed value (`GLP_FX`) and four
columns. -/
structure MipProblem where
  row : ℤ
  x1 : Column
  x2 : Column
  size1 : Column
  size2 : Column
  deriving DecidableEq, Repr

/-- The program has an integer solution. -/
def MipProblem.Feasible (p : MipProblem) : Prop :=
  ∃ x1 ≤ p.x1.upper, ∃ x2 ≤ p.x2.upper, ∃ s1 ≤ p.size1.upper, ∃ s2 ≤ p.size2.upper,
    p.x1.coefficient * (x1 : ℤ) + p.x2.coefficient * x2 + p.size1.coefficient * s1 +
      p.size2.coefficient * s2 = p.row

instance (p : MipProblem) : Decidable p.Feasible :=
  inferInstanceAs (Decidable (∃ _ ≤ _, _))

/-- Every column has a lower bound below its upper bound. -/
def MipProblem.Proper (p : MipProblem) : Prop :=
  0 < p.x1.upper ∧ 0 < p.x2.upper ∧ 0 < p.size1.upper ∧ 0 < p.size2.upper

instance (p : MipProblem) : Decidable p.Proper :=
  inferInstanceAs (Decidable (_ ∧ _ ∧ _ ∧ _))

/-- The double nearest to a natural number; of two, the one with an even mantissa. -/
def roundNat (n : ℕ) : ℕ :=
  if n < 2 ^ 53 then n
  else
    let ulp := 2 ^ (n.log2 - 52)
    let q := n / ulp
    if 2 * (n % ulp) < ulp ∨ 2 * (n % ulp) = ulp ∧ q % 2 = 0 then q * ulp else (q + 1) * ulp

/-- The conversion of an integer to a double. -/
def toDouble (z : ℤ) : ℤ := z.sign * roundNat z.natAbs

theorem toDouble_eq {z : ℤ} (h : z.natAbs < 2 ^ 53) : toDouble z = z := by
  rw [toDouble, roundNat, if_pos h]
  exact Int.sign_mul_natAbs z

/-- The conversion of an integer to a `long int`. -/
def longInt (z : ℤ) : ℤ := Int.bmod z (2 ^ 64)

/-- A number that is a `long int`. -/
def FitsLong (z : ℤ) : Prop := -2 ^ 63 ≤ z ∧ z < 2 ^ 63

theorem longInt_eq {z : ℤ} (h : FitsLong z) : longInt z = z := by
  obtain ⟨hlow, hhigh⟩ := h
  rw [longInt, Int.bmod_def]
  omega

/-- The number of bytes of an access: `1 << (size_type >> 4)`. -/
def IntervalTreeNode.bytes (n : IntervalTreeNode) : ℕ := 1 <<< (n.sizeType >>> 4).toNat

theorem IntervalTreeNode.bytes_pos (n : IntervalTreeNode) : 0 < n.bytes := by
  rw [IntervalTreeNode.bytes, Nat.one_shiftLeft]
  exact Nat.two_pow_pos _

/-- The program `solve_mip` builds for two nodes. -/
def problem (node1 node2 : IntervalTreeNode) : MipProblem :=
  let diff := longInt (node1.start.toNat - node2.start.toNat)
  { row := toDouble (longInt (-1 * diff))
    x1 := ⟨node1.count.toNat, node1.diff.toNat, node1.diff.toNat⟩
    x2 := ⟨node2.count.toNat, -node2.diff.toNat, node2.diff.toNat⟩
    size1 := ⟨node1.bytes - 1, 1, 0⟩
    size2 := ⟨node2.bytes - 1, -1, 0⟩ }

/-! ## GLPK -/

/-- `GLP_UNDEF`, `GLP_OPT`, `GLP_FEAS` and `GLP_NOFEAS`. -/
inductive MipStatus
  | undef | opt | feas | nofeas
  deriving DecidableEq, Repr

/-- What is called of GLPK: the return values of `glp_exact` and of the
`glp_intopt` after it (0 for success), and the status after both. -/
structure Glpk where
  exact : MipProblem → ℤ
  intopt : MipProblem → ℤ
  mipStatus : MipProblem → MipStatus

/-- `solve_mip`. -/
def solveMip (glpk : Glpk) (node1 node2 : IntervalTreeNode) : Bool :=
  let mip := problem node1 node2
  if glpk.exact mip = 0 then
    if glpk.intopt mip = 0 then
      glpk.mipStatus mip = .feas || glpk.mipStatus mip = .opt
    else false
  else false

/-- GLPK as documented: `glp_exact` refuses a double-bounded column whose lower bound
is not below its upper bound (`GLP_EBOUND`), and otherwise the two calls find a
solution if there is one. -/
structure Glpk.Documented (glpk : Glpk) : Prop where
  ebound : ∀ p, ¬ p.Proper → glpk.exact p ≠ 0
  answer : ∀ p, p.Proper → ((glpk.exact p = 0 ∧ glpk.intopt p = 0 ∧
    (glpk.mipStatus p = .feas ∨ glpk.mipStatus p = .opt)) ↔ p.Feasible)

/-- Trying all solutions. -/
def Glpk.exhaustive : Glpk where
  exact p := if p.Proper then 0 else 4
  intopt _ := 0
  mipStatus p := if p.Feasible then .opt else .nofeas

theorem Glpk.documented_exhaustive : Glpk.exhaustive.Documented where
  ebound p hp := by
    show (if p.Proper then 0 else 4 : ℤ) ≠ 0
    rw [if_neg hp]
    decide
  answer p hp := by
    have hexact : exhaustive.exact p = 0 := if_pos hp
    have hint : exhaustive.intopt p = 0 := rfl
    have hstatus : exhaustive.mipStatus p = if p.Feasible then .opt else .nofeas := rfl
    rw [hexact, hint, hstatus]
    by_cases h : p.Feasible <;> simp [h]

/-- The answer of `solve_mip`. -/
theorem solveMip_iff {glpk : Glpk} (h : glpk.Documented) {node1 node2 : IntervalTreeNode} :
    solveMip glpk node1 node2 = true ↔
      (problem node1 node2).Proper ∧ (problem node1 node2).Feasible := by
  rw [solveMip]
  by_cases hp : (problem node1 node2).Proper
  · rw [← h.answer _ hp]
    split
    · rename_i hexact
      split
      · rename_i hint
        simp [hp, hexact, hint]
      · rename_i hint
        simp [hint]
    · rename_i hexact
      simp [hexact]
  · rw [if_neg (h.ebound _ hp)]
    simp [hp]

/-! ## The question asked -/

/-- A byte accessed through one node is accessed through the other. -/
def SharesByte (n m : IntervalTreeNode) : Prop :=
  ∃ a ∈ n.addresses, ∃ b ∈ m.addresses, ∃ i < n.bytes, ∃ j < m.bytes, a + i = b + j

theorem SharesByte.symm {n m : IntervalTreeNode} (h : SharesByte n m) : SharesByte m n := by
  obtain ⟨a, ha, b, hb, i, hi, j, hj, heq⟩ := h
  exact ⟨b, hb, a, ha, j, hj, i, hi, heq.symm⟩

/-- The program with the columns that count elements cut to the last element. -/
def MipProblem.within (p : MipProblem) : MipProblem :=
  { p with
    x1 := { p.x1 with upper := p.x1.upper - 1 }
    x2 := { p.x2 with upper := p.x2.upper - 1 } }

theorem MipProblem.feasible_of_within {p : MipProblem} (h : p.within.Feasible) : p.Feasible := by
  obtain ⟨x1, hx1, x2, hx2, s1, hs1, s2, hs2, heq⟩ := h
  exact ⟨x1, hx1.trans (Nat.sub_le _ 1), x2, hx2.trans (Nat.sub_le _ 1), s1, hs1, s2, hs2, heq⟩

/-- The row holds the difference of the two starts: it did not have to be rounded. -/
def RowExact (n m : IntervalTreeNode) : Prop :=
  (problem n m).row = (m.start.toNat : ℤ) - n.start.toNat

/-- The distance from the start of the first node to that of the second. -/
def distance (n m : IntervalTreeNode) : ℤ := m.start.toNat - n.start.toNat

theorem row_eq (n m : IntervalTreeNode) :
    (problem n m).row = toDouble (longInt (distance n m)) := by
  have hlong : longInt (-1 * longInt (n.start.toNat - m.start.toNat)) =
      longInt (distance n m) := by
    simp only [distance, longInt, Int.bmod_def]
    omega
  show toDouble (longInt (-1 * longInt (n.start.toNat - m.start.toNat))) = _
  rw [hlong]

/-- **Exactness**, but for the bounds: the program with the columns cut to the last
element is feasible exactly if the nodes share a byte. -/
theorem feasible_within_iff {n m : IntervalTreeNode} (hn : 0 < n.count.toNat)
    (hm : 0 < m.count.toNat) (h : RowExact n m) :
    (problem n m).within.Feasible ↔ SharesByte n m := by
  have hrow : (problem n m).within.row = m.start.toNat - n.start.toNat := h
  have hnb := n.bytes_pos
  have hmb := m.bytes_pos
  constructor
  · rintro ⟨k1, h1, k2, h2, i, h3, j, h4, heq⟩
    rw [hrow] at heq
    have h1 : k1 ≤ n.count.toNat - 1 := h1
    have h2 : k2 ≤ m.count.toNat - 1 := h2
    have h3 : i ≤ n.bytes - 1 := h3
    have h4 : j ≤ m.bytes - 1 := h4
    refine ⟨_, ⟨k1, by omega, rfl⟩, _, ⟨k2, by omega, rfl⟩, i, by omega, j, by omega, ?_⟩
    have heq' : (n.diff.toNat : ℤ) * k1 + -m.diff.toNat * k2 + 1 * i + -1 * j =
      m.start.toNat - n.start.toNat := heq
    zify
    linarith
  · rintro ⟨_, ⟨k1, hk1, rfl⟩, _, ⟨k2, hk2, rfl⟩, i, hi, j, hj, heq⟩
    refine ⟨k1, ?_, k2, ?_, i, ?_, j, ?_, ?_⟩
    · show k1 ≤ n.count.toNat - 1
      omega
    · show k2 ≤ m.count.toNat - 1
      omega
    · show i ≤ n.bytes - 1
      omega
    · show j ≤ m.bytes - 1
      omega
    · rw [hrow]
      show (n.diff.toNat : ℤ) * k1 + -m.diff.toNat * k2 + 1 * i + -1 * j = _
      zify at heq
      linarith

/-! ## Rounding -/

/-- At most 53 significant bits. -/
def Significant (n : ℕ) : Prop := ∃ q < 2 ^ 53, ∃ e, n = q * 2 ^ e

/-- Other numbers are rounded. -/
theorem roundNat_eq_iff {n : ℕ} : roundNat n = n ↔ Significant n := by
  by_cases hsmall : n < 2 ^ 53
  · rw [roundNat, if_pos hsmall]
    exact ⟨fun _ => ⟨n, hsmall, 0, (Nat.mul_one n).symm⟩, fun _ => rfl⟩
  have hn : n ≠ 0 := by omega
  have hlog : 53 ≤ n.log2 := (Nat.le_log2 hn).2 (not_lt.1 hsmall)
  have hulp := Nat.two_pow_pos (n.log2 - 52)
  rw [roundNat, if_neg hsmall]
  dsimp only
  constructor
  · intro h
    split at h
    · refine ⟨_, ?_, _, h.symm⟩
      rw [Nat.div_lt_iff_lt_mul hulp, ← Nat.pow_add, show 53 + (n.log2 - 52) = n.log2 + 1 by omega]
      exact Nat.lt_log2_self
    · have hdiv := Nat.div_add_mod n (2 ^ (n.log2 - 52))
      have hmod := Nat.mod_lt n hulp
      rw [Nat.add_mul, Nat.mul_comm (n / _)] at h
      omega
  · rintro ⟨q, hq, e, heq⟩
    have hlt : 2 ^ n.log2 < 2 ^ (53 + e) := by
      calc 2 ^ n.log2 ≤ n := Nat.log2_self_le hn
        _ = q * 2 ^ e := heq
        _ < 2 ^ 53 * 2 ^ e := Nat.mul_lt_mul_of_pos_right hq (Nat.two_pow_pos e)
        _ = 2 ^ (53 + e) := (Nat.pow_add 2 53 e).symm
    have he : n.log2 - 52 ≤ e := by
      have := (Nat.pow_lt_pow_iff_right (by decide)).1 hlt
      omega
    have hdvd : 2 ^ (n.log2 - 52) ∣ q * 2 ^ e := (Nat.pow_dvd_pow 2 he).mul_left q
    rw [← heq] at hdvd
    rw [Nat.mod_eq_zero_of_dvd hdvd, if_pos (Or.inl hulp), Nat.div_mul_cancel hdvd]

/-- A number that may be rounded does not get small. -/
theorem le_roundNat {n : ℕ} (h : 2 ^ 53 ≤ n) : 2 ^ 53 ≤ roundNat n := by
  have hn : n ≠ 0 := by omega
  have hlog : 53 ≤ n.log2 := (Nat.le_log2 hn).2 h
  have hulp := Nat.two_pow_pos (n.log2 - 52)
  have hq : 2 ^ 52 ≤ n / 2 ^ (n.log2 - 52) := by
    rw [Nat.le_div_iff_mul_le hulp, ← Nat.pow_add, show 52 + (n.log2 - 52) = n.log2 by omega]
    exact Nat.log2_self_le hn
  have hfloor : 2 ^ 53 ≤ n / 2 ^ (n.log2 - 52) * 2 ^ (n.log2 - 52) := by
    calc 2 ^ 53 = 2 ^ 52 * 2 ^ 1 := rfl
      _ ≤ n / 2 ^ (n.log2 - 52) * 2 ^ (n.log2 - 52) :=
        Nat.mul_le_mul hq (Nat.pow_le_pow_right (by decide) (by omega))
  rw [roundNat, if_neg (not_lt.2 h)]
  dsimp only
  split
  · exact hfloor
  · rw [Nat.add_mul]
    omega

theorem toDouble_eq_iff {z : ℤ} : toDouble z = z ↔ Significant z.natAbs := by
  rw [← roundNat_eq_iff, toDouble]
  constructor
  · intro h
    have habs := congrArg Int.natAbs h
    rw [Int.natAbs_mul, Int.natAbs_natCast] at habs
    by_cases hz : z = 0
    · subst hz
      rfl
    · rwa [Int.natAbs_sign_of_ne_zero hz, Nat.one_mul] at habs
  · intro h
    rw [h]
    exact Int.sign_mul_natAbs z

theorem toDouble_neg {z : ℤ} (h : z < 0) : toDouble z ≤ 0 := by
  rw [toDouble, Int.sign_eq_neg_one_of_neg h]
  omega

theorem toDouble_pos {z : ℤ} (h : 0 < z) : 0 ≤ toDouble z := by
  rw [toDouble, Int.sign_eq_one_of_pos h]
  omega

/-- Rounding does not make a number small. -/
theorem toDouble_eq_of_natAbs {z : ℤ} (h : (toDouble z).natAbs < 2 ^ 53) : toDouble z = z := by
  refine toDouble_eq (not_le.1 fun hbig => ?_)
  rw [toDouble, Int.natAbs_mul, Int.natAbs_natCast,
    Int.natAbs_sign_of_ne_zero (by omega), Nat.one_mul] at h
  exact absurd (le_roundNat hbig) (not_le.2 h)

/-- **When the row is the distance**: exactly for a `long int` of at most 53 significant bits. -/
theorem rowExact_iff {n m : IntervalTreeNode} :
    RowExact n m ↔ FitsLong (distance n m) ∧ Significant (distance n m).natAbs := by
  have hn := n.start.toNat_lt
  have hm := m.start.toNat_lt
  have hdist : distance n m = m.start.toNat - n.start.toNat := rfl
  rw [RowExact, row_eq, ← hdist]
  by_cases hfits : FitsLong (distance n m)
  · rw [longInt_eq hfits, toDouble_eq_iff, and_iff_right hfits]
  · -- the distance has one sign, the row the other
    refine ⟨fun h => absurd h ?_, fun h => absurd h.1 hfits⟩
    have hsign : 0 < distance n m ∧ longInt (distance n m) < 0 ∨
        distance n m < 0 ∧ 0 < longInt (distance n m) := by
      simp only [FitsLong] at hfits
      simp only [longInt, Int.bmod_def]
      omega
    rcases hsign with ⟨hdpos, hlong⟩ | ⟨hdneg, hlong⟩
    · have hrow := toDouble_neg hlong
      omega
    · have hrow := toDouble_pos hlong
      omega

/-! ## When the answer is right -/

/-- The elements of these numbers have a byte in common. -/
def Touch (n m : IntervalTreeNode) (k l : ℕ) : Prop :=
  n.start.toNat + n.diff.toNat * k < m.start.toNat + m.diff.toNat * l + m.bytes ∧
    m.start.toNat + m.diff.toNat * l < n.start.toNat + n.diff.toNat * k + n.bytes

theorem sharesByte_iff_touch {n m : IntervalTreeNode} : SharesByte n m ↔
    ∃ k < n.count.toNat, ∃ l < m.count.toNat, Touch n m k l := by
  constructor
  · rintro ⟨_, ⟨k, hk, rfl⟩, _, ⟨l, hl, rfl⟩, i, hi, j, hj, heq⟩
    exact ⟨k, hk, l, hl, by omega, by omega⟩
  · rintro ⟨k, hk, l, hl, hnm, hmn⟩
    have hnb := n.bytes_pos
    have hmb := m.bytes_pos
    refine ⟨_, ⟨k, hk, rfl⟩, _, ⟨l, hl, rfl⟩, ?_⟩
    generalize n.start.toNat + n.diff.toNat * k = a at hnm hmn
    generalize m.start.toNat + m.diff.toNat * l = b at hnm hmn
    exact ⟨max a b - a, by omega, max a b - b, by omega, by omega⟩

/-- If the second node starts this far from the first, the elements of these numbers have a byte
in common. -/
def TouchAt (d : ℤ) (n m : IntervalTreeNode) (k l : ℕ) : Prop :=
  (n.diff.toNat * k : ℕ) < d + (m.diff.toNat * l + m.bytes : ℕ) ∧
    d + (m.diff.toNat * l : ℕ) < (n.diff.toNat * k + n.bytes : ℕ)

theorem touch_iff {n m : IntervalTreeNode} {k l : ℕ} :
    Touch n m k l ↔ TouchAt (distance n m) n m k l := by
  simp only [Touch, TouchAt, distance]
  generalize n.diff.toNat * k = a
  generalize m.diff.toNat * l = b
  omega

/-- **What GLPK is asked**: whether two elements touch at the distance in the row, the next ones
included. -/
theorem feasible_problem_iff {n m : IntervalTreeNode} : (problem n m).Feasible ↔
    ∃ k ≤ n.count.toNat, ∃ l ≤ m.count.toNat, TouchAt (problem n m).row n m k l := by
  have hnb := n.bytes_pos
  have hmb := m.bytes_pos
  have hsum : ∀ k l i j : ℕ, (n.diff.toNat : ℤ) * k + -m.diff.toNat * l + 1 * i + -1 * j =
      (n.diff.toNat * k : ℕ) - (m.diff.toNat * l : ℕ) + i - j := by
    intro k l i j
    push_cast
    ring
  constructor
  · rintro ⟨k, hk, l, hl, i, hi, j, hj, heq⟩
    have hi : i ≤ n.bytes - 1 := hi
    have hj : j ≤ m.bytes - 1 := hj
    have heq : _ = (problem n m).row := (hsum k l i j).symm.trans heq
    exact ⟨k, hk, l, hl, by omega, by omega⟩
  · rintro ⟨k, hk, l, hl, hnm, hmn⟩
    -- the first byte they have in common
    obtain ⟨i, j, hi, hj, heq⟩ : ∃ i j : ℕ, i ≤ n.bytes - 1 ∧ j ≤ m.bytes - 1 ∧
        ((n.diff.toNat * k : ℕ) : ℤ) - (m.diff.toNat * l : ℕ) + i - j = (problem n m).row := by
      generalize n.diff.toNat * k = a at hnm hmn
      generalize m.diff.toNat * l = b at hnm hmn
      exact ⟨((problem n m).row + b - a).toNat, (a - b - (problem n m).row).toNat,
        by omega, by omega, by omega⟩
    exact ⟨k, hk, l, hl, i, hi, j, hj, (hsum k l i j).trans heq⟩

/-! ### Far starts -/

/-- The elements of these numbers have a byte in common if the addresses start over at 0 after the
last one. -/
def TouchAround (n m : IntervalTreeNode) (k l : ℕ) : Prop :=
  TouchAt (distance n m - 2 ^ 64) n m k l ∨ TouchAt (distance n m + 2 ^ 64) n m k l

/-- The node, its next element included, spans no more bytes than a double can count. -/
def Short (n : IntervalTreeNode) : Prop := n.diff.toNat * n.count.toNat + n.bytes ≤ 2 ^ 53

theorem TouchAt.natAbs_lt {d : ℤ} {n m : IntervalTreeNode} {k l : ℕ} (h : TouchAt d n m k l)
    (hn : Short n) (hm : Short m) (hk : k ≤ n.count.toNat) (hl : l ≤ m.count.toNat) :
    d.natAbs < 2 ^ 53 := by
  have hnk := Nat.mul_le_mul_left n.diff.toNat hk
  have hml := Nat.mul_le_mul_left m.diff.toNat hl
  have hnspan : n.diff.toNat * n.count.toNat + n.bytes ≤ 2 ^ 53 := hn
  have hmspan : m.diff.toNat * m.count.toNat + m.bytes ≤ 2 ^ 53 := hm
  obtain ⟨hnm, hmn⟩ := h
  omega

theorem not_fitsLong_of_touchAround {n m : IntervalTreeNode} (hn : Short n) (hm : Short m)
    {k l : ℕ} (hk : k ≤ n.count.toNat) (hl : l ≤ m.count.toNat) (h : TouchAround n m k l) :
    ¬ FitsLong (distance n m) := by
  rintro ⟨hlow, hhigh⟩
  rcases h with h | h
  · have hnear := h.natAbs_lt hn hm hk hl
    omega
  · have hnear := h.natAbs_lt hn hm hk hl
    omega

/-- For short nodes a row that is rounded is out of reach, and one that wraps around is asked
around the end of the address space. -/
theorem touchAt_row_iff {n m : IntervalTreeNode} (hn : Short n) (hm : Short m) {k l : ℕ}
    (hk : k ≤ n.count.toNat) (hl : l ≤ m.count.toNat) :
    TouchAt (problem n m).row n m k l ↔ Touch n m k l ∨ TouchAround n m k l := by
  have hdist : distance n m = m.start.toNat - n.start.toNat := rfl
  have hns := n.start.toNat_lt
  have hms := m.start.toNat_lt
  rw [row_eq, touch_iff, TouchAround]
  constructor
  · intro h
    have hsmall := toDouble_eq_of_natAbs (h.natAbs_lt hn hm hk hl)
    rw [hsmall] at h
    have hcases : longInt (distance n m) = distance n m ∨
        longInt (distance n m) = distance n m - 2 ^ 64 ∨
        longInt (distance n m) = distance n m + 2 ^ 64 := by
      simp only [longInt, Int.bmod_def]
      omega
    rcases hcases with heq | heq | heq <;> rw [heq] at h
    · exact Or.inl h
    · exact Or.inr (Or.inl h)
    · exact Or.inr (Or.inr h)
  · intro h
    obtain ⟨d, hd, heq⟩ : ∃ d, TouchAt d n m k l ∧ (d.natAbs < 2 ^ 53 →
        longInt (distance n m) = d) := by
      rcases h with h | h | h
      all_goals
        refine ⟨_, h, fun hnear => ?_⟩
        simp only [longInt, Int.bmod_def]
        omega
    have hnear := hd.natAbs_lt hn hm hk hl
    rwa [heq hnear, toDouble_eq hnear]

/-- Rounding does not matter: the nodes are short, or the distance of the starts is a `long int`
that a double holds. -/
def InReach (n m : IntervalTreeNode) : Prop :=
  Short n ∧ Short m ∨ FitsLong (distance n m) ∧ Significant (distance n m).natAbs

theorem feasible_iff_touch {n m : IntervalTreeNode} (h : InReach n m) :
    (problem n m).Feasible ↔
      (∃ k ≤ n.count.toNat, ∃ l ≤ m.count.toNat, Touch n m k l) ∨
        ¬ FitsLong (distance n m) ∧
          ∃ k ≤ n.count.toNat, ∃ l ≤ m.count.toNat, TouchAround n m k l := by
  rw [feasible_problem_iff]
  rcases h with ⟨hn, hm⟩ | hexact
  · constructor
    · rintro ⟨k, hk, l, hl, h⟩
      rcases (touchAt_row_iff hn hm hk hl).1 h with h | h
      · exact Or.inl ⟨k, hk, l, hl, h⟩
      · exact Or.inr ⟨not_fitsLong_of_touchAround hn hm hk hl h, k, hk, l, hl, h⟩
    · rintro (⟨k, hk, l, hl, h⟩ | ⟨-, k, hk, l, hl, h⟩)
      · exact ⟨k, hk, l, hl, (touchAt_row_iff hn hm hk hl).2 (Or.inl h)⟩
      · exact ⟨k, hk, l, hl, (touchAt_row_iff hn hm hk hl).2 (Or.inr h)⟩
  · have hrow : (problem n m).row = distance n m := rowExact_iff.2 hexact
    simp only [hrow, ← touch_iff, hexact.1, not_true_eq_false, false_and, or_false]

theorem fitsLong_of_touch {n m : IntervalTreeNode} (h : InReach n m) {k l : ℕ}
    (hk : k < n.count.toNat) (hl : l < m.count.toNat) (htouch : Touch n m k l) :
    FitsLong (distance n m) := by
  rcases h with ⟨hn, hm⟩ | hexact
  · have hnear := (touch_iff.1 htouch).natAbs_lt hn hm hk.le hl.le
    exact ⟨by omega, by omega⟩
  · exact hexact.1

/-- What decides whether the answer is right.

* `oneByte`: with an access of one byte on either side no two elements touch.  The column of
  its size is bounded by 0 from both sides, and GLPK refuses the program.
* `next`: with longer accesses, the element that would come next in one of the nodes touches an
  element of the other, or its next one, only where two of their elements touch.  The
  columns that count elements admit it.
* `around`: with longer accesses, and starts whose distance is no `long int`, no two elements touch
  around the end of the address space, the next ones included.  The row wraps around. -/
structure MipSafe (n m : IntervalTreeNode) : Prop where
  oneByte : n.bytes = 1 ∨ m.bytes = 1 →
    ∀ k < n.count.toNat, ∀ l < m.count.toNat, ¬ Touch n m k l
  next : 1 < n.bytes → 1 < m.bytes →
    (∃ l ≤ m.count.toNat, Touch n m n.count.toNat l) ∨
      (∃ k ≤ n.count.toNat, Touch n m k m.count.toNat) →
    ∃ k < n.count.toNat, ∃ l < m.count.toNat, Touch n m k l
  around : 1 < n.bytes → 1 < m.bytes → ¬ FitsLong (distance n m) →
    ∀ k ≤ n.count.toNat, ∀ l ≤ m.count.toNat, ¬ TouchAround n m k l

/-- Elements touch, the next ones included. -/
theorem touch_le_iff {n m : IntervalTreeNode} :
    (∃ k ≤ n.count.toNat, ∃ l ≤ m.count.toNat, Touch n m k l) ↔
      (∃ k < n.count.toNat, ∃ l < m.count.toNat, Touch n m k l) ∨
        (∃ l ≤ m.count.toNat, Touch n m n.count.toNat l) ∨
          ∃ k ≤ n.count.toNat, Touch n m k m.count.toNat := by
  constructor
  · rintro ⟨k, hk, l, hl, h⟩
    rcases Nat.eq_or_lt_of_le hk with rfl | hk'
    · exact Or.inr (Or.inl ⟨l, hl, h⟩)
    · rcases Nat.eq_or_lt_of_le hl with rfl | hl'
      · exact Or.inr (Or.inr ⟨k, hk, h⟩)
      · exact Or.inl ⟨k, hk', l, hl', h⟩
  · rintro (⟨k, hk, l, hl, h⟩ | ⟨l, hl, h⟩ | ⟨k, hk, h⟩)
    · exact ⟨k, hk.le, l, hl.le, h⟩
    · exact ⟨_, le_refl _, l, hl, h⟩
    · exact ⟨k, hk, _, le_refl _, h⟩

theorem proper_problem_iff {n m : IntervalTreeNode} (hn : 0 < n.count.toNat)
    (hm : 0 < m.count.toNat) : (problem n m).Proper ↔ 1 < n.bytes ∧ 1 < m.bytes := by
  show 0 < n.count.toNat ∧ 0 < m.count.toNat ∧ 0 < n.bytes - 1 ∧ 0 < m.bytes - 1 ↔ _
  omega

/-- **When `solve_mip` is exact**: for nodes with at least one element, which are in reach if both
have longer accesses than one byte, exactly if they meet the three conditions. -/
theorem solveMip_exact_iff {glpk : Glpk} (hg : glpk.Documented) {n m : IntervalTreeNode}
    (hn : 0 < n.count.toNat) (hm : 0 < m.count.toNat)
    (hreach : 1 < n.bytes → 1 < m.bytes → InReach n m) :
    (solveMip glpk n m = true ↔ SharesByte n m) ↔ MipSafe n m := by
  have hnb := n.bytes_pos
  have hmb := m.bytes_pos
  rw [solveMip_iff hg, proper_problem_iff hn hm, sharesByte_iff_touch]
  by_cases hone : n.bytes = 1 ∨ m.bytes = 1
  · -- the program is refused
    have hrefused : ¬ ((1 < n.bytes ∧ 1 < m.bytes) ∧ (problem n m).Feasible) := by omega
    rw [iff_false_left hrefused]
    constructor
    · intro hnone
      exact ⟨fun _ k hk l hl htouch => hnone ⟨k, hk, l, hl, htouch⟩, fun h1 h2 => by omega,
        fun h1 h2 => by omega⟩
    · rintro h ⟨k, hk, l, hl, htouch⟩
      exact h.oneByte hone k hk l hl htouch
  · have h1 : 1 < n.bytes := by omega
    have h2 : 1 < m.bytes := by omega
    have hin := hreach h1 h2
    rw [feasible_iff_touch hin, touch_le_iff, and_iff_right ⟨h1, h2⟩]
    constructor
    · intro h
      refine ⟨fun hone' => absurd hone' hone, fun _ _ hnext => h.1 (Or.inl (Or.inr hnext)), ?_⟩
      intro _ _ hfar k hk l hl haround
      obtain ⟨k', hk', l', hl', htouch⟩ := h.1 (Or.inr ⟨hfar, k, hk, l, hl, haround⟩)
      exact hfar (fitsLong_of_touch hin hk' hl' htouch)
    · intro h
      refine ⟨?_, fun htouch => Or.inl (Or.inl htouch)⟩
      rintro ((htouch | hnext) | ⟨hfar, k, hk, l, hl, haround⟩)
      · exact htouch
      · exact h.next h1 h2 hnext
      · exact absurd haround (h.around h1 h2 hfar k hk l hl)

/-- Three writes 8 bytes apart and two writes 12 bytes apart: the third and the first meet, and so
do the next ones. -/
theorem solveMip_exact_lastElement :
    solveMip Glpk.exhaustive ⟨0, 16, 3, 0x21, 8, 64, ∅⟩ ⟨18, 30, 2, 0x21, 12, 65, ∅⟩ = true ↔
      SharesByte ⟨0, 16, 3, 0x21, 8, 64, ∅⟩ ⟨18, 30, 2, 0x21, 12, 65, ∅⟩ := by
  refine (solveMip_exact_iff Glpk.documented_exhaustive (by decide) (by decide) ?_).2 ?_
  · exact fun _ _ => Or.inl ⟨by unfold Short; decide, by unfold Short; decide⟩
  · refine ⟨fun hone => absurd hone (by decide), fun _ _ _ => ⟨2, by decide, 0, by decide, ?_⟩, ?_⟩
    · exact ⟨by decide, by decide⟩
    · exact fun _ _ hfar => absurd ⟨by decide, by decide⟩ hfar

/-- Two writes to the bytes 0 to 3 and 8 to 11 share no byte with one to the bytes 16 to
19, but a third would. -/
theorem solveMip_phantom :
    ¬ (solveMip Glpk.exhaustive ⟨0, 8, 2, 0x21, 8, 64, ∅⟩ ⟨16, 16, 1, 0x21, 0, 65, ∅⟩ = true ↔
      SharesByte ⟨0, 8, 2, 0x21, 8, 64, ∅⟩ ⟨16, 16, 1, 0x21, 0, 65, ∅⟩) := by
  intro h
  have hsolve : solveMip Glpk.exhaustive ⟨0, 8, 2, 0x21, 8, 64, ∅⟩ ⟨16, 16, 1, 0x21, 0, 65, ∅⟩ =
      true := by
    rw [solveMip_iff Glpk.documented_exhaustive]
    exact ⟨by decide, 2, by decide, 0, by decide, 0, by decide, 0, by decide, by decide⟩
  obtain ⟨_, ⟨k1, hk1, rfl⟩, _, ⟨k2, hk2, rfl⟩, i, hi, j, hj, heq⟩ := h.1 hsolve
  have hk1 : k1 < 2 := hk1
  have hk2 : k2 < 1 := hk2
  have hi : i < 4 := hi
  have hj : j < 4 := hj
  have heq : 0 + 8 * k1 + i = 16 + 0 * k2 + j := heq
  omega

end Tools
end Sword
