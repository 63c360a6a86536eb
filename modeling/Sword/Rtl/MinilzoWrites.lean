import Sword.Rtl.Minilzo

/-!
# What the compressor finds

The compressor compares words of four and eight bytes, and counts the zero bits
below the first difference.  What it finds is what it says: a position whose
bytes repeat the ones at an earlier position, for the length it writes.

* `Same` — the same bytes at two positions.
* `same_of_dvd` — two words whose difference ends in zero bytes begin with the same bytes.
* `matchLength_spec` — the match that is found, with every read inside of the input.
-/

namespace Sword
namespace Rtl
namespace Minilzo

open Bytes Lz77

/-! ## Words -/

theorem ofLeBytes_take (bs : List UInt8) (j : Nat) :
    ofLeBytes (bs.take j) = ofLeBytes bs % 256 ^ j := by
  induction bs generalizing j with
  | nil => simp [ofLeBytes]
  | cons b bs ih =>
    cases j with
    | zero => simp [ofLeBytes, Nat.mod_one]
    | succ j =>
      have hb : b.toNat < 256 := b.toNat_lt
      rw [List.take_succ_cons, ofLeBytes, ofLeBytes, ih, pow_succ', Nat.mod_mul]
      have hdiv : (b.toNat + 256 * ofLeBytes bs) / 256 = ofLeBytes bs := by omega
      have hmod : (b.toNat + 256 * ofLeBytes bs) % 256 = b.toNat := by omega
      rw [hdiv, hmod]

theorem ofLeBytes_lt (bs : List UInt8) : ofLeBytes bs < 256 ^ bs.length := by
  have h := ofLeBytes_take bs bs.length
  rw [List.take_length] at h
  rw [h]
  exact Nat.mod_lt _ (by positivity)

theorem ofLeBytes_inj {bs cs : List UInt8} (hlen : bs.length = cs.length)
    (h : ofLeBytes bs = ofLeBytes cs) : bs = cs := by
  induction bs generalizing cs with
  | nil => simpa using hlen.symm
  | cons b bs ih =>
    obtain _ | ⟨c, cs⟩ := cs
    · cases hlen
    · rw [ofLeBytes, ofLeBytes] at h
      have hb : b.toNat < 256 := b.toNat_lt
      have hc : c.toNat < 256 := c.toNat_lt
      rw [UInt8.toNat_inj.1 (show b.toNat = c.toNat by omega),
        ih (Nat.succ.inj hlen) (by omega)]

/-! ## Matches -/

/-- The `n` bytes at one position are the ones at the other. -/
def Same (input : List UInt8) (a b n : Nat) : Prop := ∀ i < n, input[a + i]? = input[b + i]?

variable {input : List UInt8} {a b : Nat}

theorem Same.append {m n : Nat} (h : Same input a b m) (h' : Same input (a + m) (b + m) n) :
    Same input a b (m + n) := by
  intro i hi
  rcases Nat.lt_or_ge i m with him | him
  · exact h i him
  · obtain ⟨j, rfl⟩ := Nat.exists_eq_add_of_le him
    have hj := h' j (by omega)
    rwa [Nat.add_assoc, Nat.add_assoc] at hj

theorem uaGet_eq {w : Nat} (h : a + w ≤ input.length) :
    uaGet w input a = some (ofLeBytes ((input.drop a).take w)) := by
  simp [uaGet, bytesAt, h]

/-- Words whose difference ends in `j` zero bytes begin with the same `j` bytes. -/
theorem same_of_dvd {w j : Nat} (hj : j ≤ w) (ha : a + w ≤ input.length)
    (hb : b + w ≤ input.length) (hdvd : 2 ^ (8 * j) ∣
      ofLeBytes ((input.drop a).take w) ^^^ ofLeBytes ((input.drop b).take w)) :
    Same input a b j := by
  have hpow : 256 ^ j = 2 ^ (8 * j) := by rw [pow_mul]; rfl
  have htake (c : Nat) : ofLeBytes ((input.drop c).take w) % 2 ^ (8 * j) =
      ofLeBytes ((input.drop c).take j) := by
    rw [← hpow, ← ofLeBytes_take, List.take_take, Nat.min_eq_left hj]
  have heq : (input.drop a).take j = (input.drop b).take j := by
    refine ofLeBytes_inj (by simp; omega) ?_
    rw [← htake a, ← htake b]
    refine Nat.xor_eq_zero_iff.1 ?_
    rw [← Nat.xor_mod_two_pow, Nat.mod_eq_zero_of_dvd hdvd]
  intro i hi
  have hget (c : Nat) : ((input.drop c).take j)[i]? = input[c + i]? := by
    rw [List.getElem?_take_of_lt hi, List.getElem?_drop]
  rw [← hget a, ← hget b, heq]

/-- The zero bytes below the first difference are bytes that agree. -/
theorem difference_spec {ip mPos mLen : Nat} (hpos : mPos ≤ ip)
    (hend : ip + mLen + 8 ≤ input.length) : ∃ v, difference input ip mPos mLen = some v ∧
      (v = 0 → Same input (ip + mLen) (mPos + mLen) 8) ∧
      (v ≠ 0 → equalBytes v < 8 ∧ Same input (ip + mLen) (mPos + mLen) (equalBytes v)) := by
  have hend' : mPos + mLen + 8 ≤ input.length := by omega
  have hword (a : Nat) : ofLeBytes ((input.drop a).take 8) < 2 ^ 64 := by
    refine (ofLeBytes_lt _).trans_le (le_trans (Nat.pow_le_pow_right (by decide) ?_)
      (show 256 ^ 8 ≤ 2 ^ 64 by decide))
    rw [List.length_take]
    exact Nat.min_le_left _ _
  refine ⟨_, by rw [difference, uaGet_eq hend, uaGet_eq hend']; rfl, fun hv => ?_, fun hv => ?_⟩
  · exact same_of_dvd le_rfl hend hend' (hv ▸ dvd_zero _)
  · have hdvd := pow_padicValNat_dvd (p := 2) (n := ofLeBytes ((input.drop (ip + mLen)).take 8) ^^^
      ofLeBytes ((input.drop (mPos + mLen)).take 8))
    have hlt := Nat.xor_lt_two_pow (hword (ip + mLen)) (hword (mPos + mLen))
    have h64 := (Nat.pow_lt_pow_iff_right (by decide)).1
      ((Nat.le_of_dvd (Nat.pos_of_ne_zero hv) hdvd).trans_lt hlt)
    have h8 : equalBytes (ofLeBytes ((input.drop (ip + mLen)).take 8) ^^^
        ofLeBytes ((input.drop (mPos + mLen)).take 8)) < 8 := by
      unfold equalBytes
      omega
    exact ⟨h8, same_of_dvd h8.le hend hend'
      ((pow_dvd_pow 2 (Nat.mul_div_le _ 8)).trans hdvd)⟩

/-- The loop goes on from eight bytes that agree, and stays within the last twenty. -/
theorem lengthen_spec {ip mPos ipEnd mLen : Nat} (hpos : mPos ≤ ip)
    (hend : ipEnd + 20 ≤ input.length) (hlen : ip + mLen < ipEnd + 4)
    (hsame : Same input ip mPos (mLen + 8)) : ∃ n, lengthen input ip mPos ipEnd mLen = some n ∧
      mLen ≤ n ∧ ip + n ≤ ipEnd + 20 ∧ Same input ip mPos n := by
  fun_induction lengthen input ip mPos ipEnd mLen with
  | case1 mLen ih =>
    obtain ⟨v, hv, hzero, hne⟩ := difference_spec hpos
      (show ip + (mLen + 8) + 8 ≤ input.length by omega)
    simp only [hv, Option.bind_eq_bind, Option.bind_some, Option.pure_def]
    by_cases hstop : ipEnd ≤ ip + (mLen + 8)
    · rw [if_pos hstop]
      exact ⟨_, rfl, by omega, by omega, hsame⟩
    · rw [if_neg hstop]
      by_cases hv0 : v = 0
      · rw [if_pos hv0]
        obtain ⟨n, hn, hle, hrest⟩ := ih hstop (by omega) (hsame.append (hzero hv0))
        exact ⟨n, hn, by omega, hrest⟩
      · rw [if_neg hv0]
        obtain ⟨hlt, hmore⟩ := hne hv0
        exact ⟨_, rfl, by omega, by omega, hsame.append hmore⟩

/-- A match of four bytes is made as long as it is found to be. -/
theorem matchLength_spec {ip mPos ipEnd : Nat} (hpos : mPos ≤ ip) (hend : ipEnd + 20 ≤ input.length)
    (hip : ip < ipEnd) (hsame : Same input ip mPos 4) :
    ∃ n, matchLength input ip mPos ipEnd = some n ∧ 4 ≤ n ∧ ip + n ≤ ipEnd + 20 ∧
      Same input ip mPos n := by
  obtain ⟨v, hv, hzero, hne⟩ := difference_spec hpos (show ip + 4 + 8 ≤ input.length by omega)
  simp only [matchLength, hv, Option.bind_eq_bind, Option.bind_some, Option.pure_def]
  by_cases hv0 : v = 0
  · rw [if_pos hv0]
    exact lengthen_spec hpos hend (by omega) (hsame.append (hzero hv0))
  · rw [if_neg hv0]
    obtain ⟨hlt, hmore⟩ := hne hv0
    exact ⟨_, rfl, by omega, by omega, hsame.append hmore⟩

/-- The word that is looked up agrees with the one it is found at. -/
theorem same_of_uaGet {dv : Nat} (h : uaGet 4 input a = some dv) (h' : uaGet 4 input b = some dv) :
    Same input a b 4 := by
  have hin {c : Nat} (hc : uaGet 4 input c = some dv) : c + 4 ≤ input.length := by
    by_contra hlt
    simp [uaGet, bytesAt, hlt] at hc
  have ha := hin h
  have hb := hin h'
  rw [uaGet_eq ha] at h
  rw [uaGet_eq hb] at h'
  refine same_of_dvd le_rfl ha hb ?_
  rw [Option.some.inj h, Option.some.inj h', Nat.xor_self]
  exact dvd_zero _

end Minilzo
end Rtl
end Sword
