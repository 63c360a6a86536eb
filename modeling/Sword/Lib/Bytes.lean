import Mathlib

/-!
# Little-endian byte strings

A machine word written to a file is a fixed number of bytes, the least
significant first.  This file has the two directions and the round trip, for an
arbitrary width, and nothing else: which word is written where is the business
of the modules that use it.

* `leBytes` / `ofLeBytes` — a number as `w` bytes, and back.
* `ofLeBytes_leBytes` — the round trip, for every number that fits.
-/

namespace Sword
namespace Bytes

/-- The `w` low bytes of `n`, least significant first. -/
def leBytes : Nat → Nat → List UInt8
  | 0, _ => []
  | w + 1, n => UInt8.ofNat n :: leBytes w (n / 256)

/-- The number a little-endian byte string denotes. -/
def ofLeBytes : List UInt8 → Nat
  | [] => 0
  | b :: bs => b.toNat + 256 * ofLeBytes bs

@[simp] theorem length_leBytes (w n : Nat) : (leBytes w n).length = w := by
  induction w generalizing n with
  | zero => rfl
  | succ w ih => simp [leBytes, ih]

/-- A number that fits into `w` bytes is read back from them. -/
theorem ofLeBytes_leBytes {w n : Nat} (h : n < 256 ^ w) : ofLeBytes (leBytes w n) = n := by
  induction w generalizing n with
  | zero =>
    have h0 : n = 0 := by simpa using h
    simp [leBytes, ofLeBytes, h0]
  | succ w ih =>
    have hdiv : n / 256 < 256 ^ w := Nat.div_lt_of_lt_mul (by rw [← pow_succ']; exact h)
    rw [leBytes, ofLeBytes, ih hdiv]
    have hlow : (UInt8.ofNat n).toNat = n % 256 := by simp
    rw [hlow]
    omega

end Bytes
end Sword
