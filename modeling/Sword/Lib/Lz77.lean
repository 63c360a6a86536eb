import Mathlib

/-!
# Copying from what has been written

A dictionary decoder writes its output by copying earlier output: `n` elements,
each the one `d` places before the end at the moment it is written, so that a
copy may overlap what it produces.  The output is a list with the latest element
first, which makes the element `d` places back the entry `d - 1`.

* `copyMatch` — the copy, element by element; `copyMatch_add` splits it.
* `copyBlock` — the copy of a block at once, as `memcpy` does it;
  `copyBlock_eq` — the same, as long as the block does not overlap what it produces.
* `copyMatch_take` — a copy continues a text whose next `n` elements repeat the
  ones `d` places before.
* `inChunks` — any additive transfer, eight at a time, then four, then one by one;
  `inChunks_eq` — the same as the transfer at once.
-/

namespace Sword
namespace Lz77

variable {α σ : Type}

/-! ## Copies -/

/-- One element more, the one `d` places back. -/
def copyOne (d : Nat) (out : List α) : Option (List α) :=
  if d = 0 then none else (out[d - 1]?).map (· :: out)

/-- `n` elements more, each the one `d` places back when it is written. -/
def copyMatch (d : Nat) : Nat → List α → Option (List α)
  | 0, out => some out
  | n + 1, out => copyOne d out >>= copyMatch d n

/-- `n` elements more, all read before the first is written. -/
def copyBlock (d n : Nat) (out : List α) : Option (List α) :=
  if n ≤ d ∧ d ≤ out.length then some ((out.drop (d - n)).take n ++ out) else none

@[simp] theorem copyMatch_zero (d : Nat) (out : List α) : copyMatch d 0 out = some out := rfl

theorem copyMatch_add (d m n : Nat) (out : List α) :
    copyMatch d (m + n) out = copyMatch d m out >>= copyMatch d n := by
  induction m generalizing out with
  | zero => simp
  | succ m ih =>
    rw [Nat.succ_add, copyMatch, copyMatch, bind_assoc]
    exact bind_congr fun out' => ih out'

/-- A block that does not overlap what it produces is copied as element by element. -/
theorem copyBlock_eq {d n : Nat} (hn : 0 < n) (hd : n ≤ d) (out : List α) :
    copyBlock d n out = copyMatch d n out := by
  rcases Nat.lt_or_ge out.length d with hlen | hlen
  · -- the first element is missing already
    obtain ⟨n, rfl⟩ := Nat.exists_eq_succ_of_ne_zero hn.ne'
    have hnone : out[d - 1]? = none := List.getElem?_eq_none (by omega)
    simp [copyBlock, copyMatch, copyOne, hnone, hlen]
  · clear hn
    induction n with
    | zero => simp [copyBlock, hlen]
    | succ n ih =>
      rw [copyMatch_add, ← ih (by omega)]
      have hlt : d - (n + 1) < out.length := by omega
      have hget : ((out.drop (d - n)).take n ++ out)[d - 1]? = some out[d - (n + 1)] := by
        have hidx : d - 1 - n = d - (n + 1) := by omega
        rw [List.getElem?_append_right (by simp; omega)]
        simp only [List.length_take, List.length_drop]
        rw [Nat.min_eq_left (by omega), hidx, List.getElem?_eq_getElem hlt]
      have hdrop : out.drop (d - (n + 1)) = out[d - (n + 1)] :: out.drop (d - n) := by
        rw [List.drop_eq_getElem_cons hlt]
        congr 2
        omega
      have hd0 : d ≠ 0 := by omega
      simp only [copyBlock, hlen, hd, and_true, if_true, show n ≤ d by omega, copyMatch, copyOne,
        Option.bind_eq_bind, Option.bind_some, hd0, if_false, hget, Option.map_some, hdrop,
        List.take_succ_cons, List.cons_append]

/-- Where a text repeats itself, a copy continues it. -/
theorem copyMatch_take {s : List α} {p d n : Nat} (hd : 0 < d) (hdp : d ≤ p)
    (hn : p + n ≤ s.length) (hrep : ∀ i < n, s[p + i]? = s[p + i - d]?) :
    copyMatch d n (s.take p).reverse = some (s.take (p + n)).reverse := by
  induction n generalizing p with
  | zero => rfl
  | succ n ih =>
    have hp : p < s.length := by omega
    have hback : p - d < s.length := by omega
    have hone : copyOne d (s.take p).reverse = some (s.take (p + 1)).reverse := by
      have hidx : (s.take p).length - 1 - (d - 1) = p - d := by
        rw [List.length_take]
        omega
      have hsame : s[p - d] = s[p] := by
        have h0 := hrep 0 (by omega)
        rw [Nat.add_zero, List.getElem?_eq_getElem hp, List.getElem?_eq_getElem hback] at h0
        exact (Option.some.inj h0).symm
      have hlt : d - 1 < (s.take p).reverse.length := by simp; omega
      rw [copyOne, if_neg hd.ne', List.getElem?_eq_getElem hlt, List.getElem_reverse]
      simp only [hidx, List.getElem_take, hsame, Option.map_some]
      rw [List.take_succ_eq_append_getElem hp, List.reverse_append]
      rfl
    rw [copyMatch, hone]
    refine (ih (p := p + 1) (by omega) (by omega) fun i hi => ?_).trans (by congr 3; omega)
    have h := hrep (i + 1) (by omega)
    have h1 : p + 1 + i = p + (i + 1) := by omega
    rw [h1, h]

/-! ## Transfers in chunks -/

/-- `t` elements one by one. -/
def oneByOne (move : Nat → σ → Option σ) : Nat → σ → Option σ
  | 0, s => some s
  | t + 1, s => move 1 s >>= oneByOne move t

/-- `t` elements by eights, then four of them, then one by one. -/
def inChunks (move : Nat → σ → Option σ) : Nat → σ → Option σ
  | t + 8, s => move 8 s >>= inChunks move t
  | t, s => if 4 ≤ t then move 4 s >>= oneByOne move (t - 4) else oneByOne move t s

section Chunks
variable {move f : Nat → σ → Option σ} (hzero : ∀ s, f 0 s = some s)
  (hadd : ∀ m n s, f (m + n) s = f m s >>= f n)
include hzero hadd

theorem oneByOne_eq (h1 : move 1 = f 1) (t : Nat) (s : σ) : oneByOne move t s = f t s := by
  induction t generalizing s with
  | zero => exact (hzero s).symm
  | succ t ih => rw [oneByOne, Nat.add_comm, hadd, h1]; exact bind_congr ih

/-- An additive transfer may be made in chunks. -/
theorem inChunks_eq (h1 : move 1 = f 1) (h4 : move 4 = f 4) (h8 : move 8 = f 8) (t : Nat)
    (s : σ) : inChunks move t s = f t s := by
  induction t using Nat.strong_induction_on generalizing s with
  | _ t ih =>
    rcases Nat.lt_or_ge t 8 with ht | ht
    · have hbase : inChunks move t s =
          if 4 ≤ t then move 4 s >>= oneByOne move (t - 4) else oneByOne move t s := by
        rw [inChunks]
        omega
      rw [hbase]
      split
      · next h4t =>
        obtain ⟨r, rfl⟩ := Nat.exists_eq_add_of_le h4t
        rw [hadd, h4, Nat.add_sub_cancel_left]
        exact bind_congr (oneByOne_eq hzero hadd h1 r)
      · exact oneByOne_eq hzero hadd h1 t s
    · obtain ⟨r, rfl⟩ := Nat.exists_eq_add_of_le' ht
      rw [inChunks, Nat.add_comm, hadd, h8]
      exact bind_congr (ih r (by omega))

end Chunks

end Lz77
end Sword
