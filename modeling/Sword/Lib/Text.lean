import Mathlib

/-!
# Text files of numbers

A file is a sequence of lines, a line is a sequence of numbers with commas between them,
and the numbers are decimal.  Two ways to read such a line are in use: field by field with
the conversions of a format, each of which takes as many digits as there are and cuts the
value to the width of a variable; and by splitting at the commas.

* `scan` — the numeral at the front of a text; `scan_toDigits`.
* `toText` — a number; `Conv.scan` — a conversion; `Conv.scan_toText` reads back what the
  conversion can hold (`Conv.Holds`), whatever follows it, as long as it is no digit.
* `fields`, `scanFields`, `scanFields_fields` — a line, and a format.
* `readInt`, `splitOn_fields` — the other way.
* `lines`, `lines_flatMap` — the lines of a file.
-/

namespace Sword
namespace Text

/-! ## Numerals -/

/-- The numeral at the front, and what follows it. -/
def scan (s : List Char) : Option (Nat × List Char) :=
  let digits := s.takeWhile Char.isDigit
  if digits = [] then none else some (Nat.ofDigitChars 10 digits 0, s.dropWhile Char.isDigit)

/-- What follows a number is no digit. -/
def Ends (rest : List Char) : Prop := ∀ c ∈ rest.head?, c.isDigit = false

theorem ends_nil : Ends [] := fun _ h => by cases h

theorem ends_comma (rest : List Char) : Ends (',' :: rest) := fun c h => by cases h; rfl

theorem isDigit_of_mem_toDigits {n : Nat} {c : Char} (h : c ∈ Nat.toDigits 10 n) :
    c.isDigit = true :=
  Nat.isDigit_of_mem_toDigits (by decide) (by decide) h

/-- A numeral begins with a digit. -/
theorem toDigits_eq_cons (n : Nat) :
    ∃ d ds, Nat.toDigits 10 n = d :: ds ∧ d.isDigit = true := by
  cases h : Nat.toDigits 10 n with
  | nil => exact absurd h Nat.toDigits_ne_nil
  | cons d ds => exact ⟨d, ds, rfl, isDigit_of_mem_toDigits (h ▸ List.mem_cons_self)⟩

/-- A numeral is read back, up to the first character that is no digit. -/
theorem scan_toDigits (n : Nat) {rest : List Char} (h : Ends rest) :
    scan (Nat.toDigits 10 n ++ rest) = some (n, rest) := by
  have hall : ∀ c ∈ Nat.toDigits 10 n, c.isDigit = true := fun c hc => isDigit_of_mem_toDigits hc
  have htake : rest.takeWhile Char.isDigit = [] := by
    cases rest with
    | nil => rfl
    | cons c rest => rw [List.takeWhile_cons, h c rfl]; rfl
  have hdrop : rest.dropWhile Char.isDigit = rest := by
    cases rest with
    | nil => rfl
    | cons c rest => rw [List.dropWhile_cons, h c rfl]; rfl
  simp [scan, List.takeWhile_append_of_pos hall, List.dropWhile_append_of_pos hall, htake, hdrop]

/-! ## Numbers -/

/-- A number in decimal. -/
def toText (i : Int) : List Char :=
  if i < 0 then '-' :: Nat.toDigits 10 i.natAbs else Nat.toDigits 10 i.natAbs

/-- `isspace`. -/
def isSpace (c : Char) : Bool := c.toNat = 32 || (9 ≤ c.toNat && c.toNat ≤ 13)

/-- The sign, and what follows it. -/
def scanSign : List Char → Bool × List Char
  | '-' :: s => (true, s)
  | '+' :: s => (false, s)
  | s => (false, s)

/-- A conversion of a format: into a variable of so many bits. -/
inductive Conv
  | unsigned (bits : Nat)
  | signed (bits : Nat)
  deriving DecidableEq, Repr

namespace Conv

/-- The value that is stored: the nearest one of 64 bits, cut to the width. -/
def store : Conv → Bool → Nat → Int
  | .unsigned bits, negative, n =>
    ((if 2 ^ 64 ≤ n then 2 ^ 64 - 1 else if negative then (2 ^ 64 - n) % 2 ^ 64 else n) %
      2 ^ bits : Nat)
  | .signed bits, negative, n =>
    (if negative then max (-2 ^ 63) (-n : Int) else min (2 ^ 63 - 1) (n : Int)).bmod (2 ^ bits)

/-- The number at the front, and what follows it. -/
def scan (c : Conv) (s : List Char) : Option (Int × List Char) :=
  let (negative, s) := scanSign (s.dropWhile isSpace)
  (Text.scan s).map fun r => (c.store negative r.1, r.2)

/-- The values of a variable of this width. -/
def Holds : Conv → Int → Prop
  | .unsigned bits, i => bits ≤ 64 ∧ 0 ≤ i ∧ i < 2 ^ bits
  | .signed bits, i => 0 < bits ∧ bits ≤ 64 ∧ -2 ^ (bits - 1) ≤ i ∧ i < 2 ^ (bits - 1)

end Conv

theorem isSpace_of_isDigit {c : Char} (h : c.isDigit = true) : isSpace c = false := by
  have hval : 48 ≤ c.toNat ∧ c.toNat ≤ 57 := Char.isDigit_iff_toNat.1 h
  simp [isSpace]
  omega

theorem scanSign_of_isDigit {c : Char} (h : c.isDigit = true) (s : List Char) :
    scanSign (c :: s) = (false, c :: s) := by
  have hminus : c ≠ '-' := by
    rintro rfl
    cases h
  have hplus : c ≠ '+' := by
    rintro rfl
    cases h
  unfold scanSign
  split
  · next heq => exact absurd (List.cons.inj heq).1 hminus
  · next heq => exact absurd (List.cons.inj heq).1 hplus
  · rfl

/-- Every character of a number is a digit or the sign. -/
theorem mem_toText {i : Int} {c : Char} (h : c ∈ toText i) : c = '-' ∨ c.isDigit = true := by
  rw [toText] at h
  split at h
  · exact (List.mem_cons.1 h).imp_right isDigit_of_mem_toDigits
  · exact Or.inr (isDigit_of_mem_toDigits h)

theorem not_mem_toText {i : Int} {c : Char} (hc : c ≠ '-') (hd : c.isDigit = false) :
    c ∉ toText i := by
  intro h
  rcases mem_toText h with h | h
  · exact hc h
  · rw [hd] at h
    cases h

/-- The sign and the numeral of a number, with nothing in front of it. -/
theorem scanSign_toText (i : Int) (rest : List Char) :
    scanSign ((toText i ++ rest).dropWhile isSpace) =
      (decide (i < 0), Nat.toDigits 10 i.natAbs ++ rest) := by
  rw [toText]
  by_cases hneg : i < 0
  · rw [if_pos hneg, decide_eq_true hneg]
    rfl
  · obtain ⟨d, ds, hds, hd⟩ := toDigits_eq_cons i.natAbs
    have hspace : ¬ isSpace d = true := by
      rw [isSpace_of_isDigit hd]
      decide
    rw [if_neg hneg, decide_eq_false hneg, hds, List.cons_append,
      List.dropWhile_cons_of_neg hspace, scanSign_of_isDigit hd]

/-- What a variable can hold is stored as it is. -/
theorem Conv.store_eq {c : Conv} {i : Int} (h : c.Holds i) :
    c.store (decide (i < 0)) i.natAbs = i := by
  cases c with
  | unsigned bits =>
    obtain ⟨hbits, h0, hlt⟩ := h
    obtain ⟨n, rfl⟩ := Int.eq_ofNat_of_zero_le h0
    have hn : n < 2 ^ bits := by exact_mod_cast hlt
    have h64 : ¬ 2 ^ 64 ≤ n := by
      have := Nat.pow_le_pow_right (show 0 < 2 by decide) hbits
      omega
    have hneg : ¬ (n : Int) < 0 := by omega
    simp only [store, Int.natAbs_natCast, if_neg h64, hneg, decide_false, Bool.false_eq_true,
      if_false, Nat.mod_eq_of_lt hn]
  | signed bits =>
    obtain ⟨hpos, hbits, hlo, hhi⟩ := h
    obtain ⟨bits, rfl⟩ := Nat.exists_eq_succ_of_ne_zero hpos.ne'
    have hle : (2 : Int) ^ bits ≤ 2 ^ 63 := by
      exact_mod_cast Nat.pow_le_pow_right (show 0 < 2 by decide) (Nat.le_of_succ_le_succ hbits)
    rw [Nat.succ_sub_one] at hlo hhi
    have hsame : (if decide (i < 0) = true then max (-2 ^ 63) (-(i.natAbs : Int))
        else min (2 ^ 63 - 1) (i.natAbs : Int)) = i := by
      by_cases hneg : i < 0
      · rw [decide_eq_true hneg, if_pos rfl]
        omega
      · rw [decide_eq_false hneg, if_neg Bool.false_ne_true]
        omega
    have hcast : ((2 ^ (bits + 1) : Nat) : Int) = 2 * 2 ^ bits := by
      push_cast
      ring
    rw [store, hsame]
    refine Int.bmod_eq_of_le ?_ ?_ <;> rw [hcast] <;> omega

/-- **A number is read back.** -/
theorem Conv.scan_toText {c : Conv} {i : Int} (h : c.Holds i) {rest : List Char}
    (hrest : Ends rest) : c.scan (toText i ++ rest) = some (i, rest) := by
  rw [scan, scanSign_toText]
  dsimp only
  rw [scan_toDigits _ hrest, Option.map_some, store_eq h]

/-! ## Lines -/

/-- Numbers with commas between them. -/
def fields : List Int → List Char
  | [] => []
  | [i] => toText i
  | i :: is => toText i ++ ',' :: fields is

/-- The numbers of a line, by the conversions of a format with commas between them. -/
def scanFields : List Conv → List Char → Option (List Int)
  | [], _ => some []
  | c :: cs, s => do
    let (i, s) ← c.scan s
    if cs = [] then return [i]
    match s with
    | ',' :: s => return i :: (← scanFields cs s)
    | _ => none

/-- **A line is read back** by a format whose variables can hold its numbers. -/
theorem scanFields_fields {cs : List Conv} {is : List Int} (h : List.Forall₂ Conv.Holds cs is) :
    scanFields cs (fields is) = some is := by
  induction h with
  | nil => rfl
  | @cons c i cs is hc hcs ih =>
    cases hcs with
    | nil =>
      have hone := Conv.scan_toText hc ends_nil
      rw [List.append_nil] at hone
      simp [scanFields, fields, hone]
    | @cons c' i' cs is hc' hcs =>
      have hone := Conv.scan_toText hc (ends_comma (fields (i' :: is)))
      rw [scanFields, fields, hone, Option.bind_eq_bind, Option.bind_some]
      · simp [ih]
      · simp

/-! ### Splitting at the commas -/

/-- `int(s)`: blanks, a sign and digits, and nothing else. -/
def readInt (s : List Char) : Option Int :=
  let (negative, s) := scanSign ((s.dropWhile isSpace).rdropWhile isSpace)
  match scan s with
  | some (n, []) => some (if negative then -n else n)
  | _ => none

theorem readInt_toText (i : Int) : readInt (toText i) = some i := by
  have hlast : (toText i).rdropWhile isSpace = toText i := by
    rw [List.rdropWhile_eq_self_iff]
    intro hne
    rcases mem_toText (List.getLast_mem hne) with h | h
    · rw [h]
      decide
    · rw [isSpace_of_isDigit h]
      decide
  have hdrop : (toText i).dropWhile isSpace = toText i := by
    rw [List.dropWhile_eq_self_iff]
    intro hlen
    rcases mem_toText (List.getElem_mem hlen) with h | h
    · rw [h]
      decide
    · rw [isSpace_of_isDigit h]
      decide
  have hsign := scanSign_toText i []
  rw [List.append_nil, List.append_nil, hdrop] at hsign
  have hscan := scan_toDigits i.natAbs ends_nil
  rw [List.append_nil] at hscan
  have hval : (if decide (i < 0) = true then -(i.natAbs : Int) else i.natAbs) = i := by
    by_cases hneg : i < 0
    · rw [decide_eq_true hneg, if_pos rfl]
      omega
    · rw [decide_eq_false hneg, if_neg Bool.false_ne_true]
      omega
  simp only [readInt, hdrop, hlast, hsign, hscan, hval]

/-- A line is split into its numbers. -/
theorem splitOn_fields {is : List Int} (h : is ≠ []) :
    (fields is).splitOn ',' = is.map toText := by
  have hcomma (i : Int) : ',' ∉ toText i := not_mem_toText (by decide) (by decide)
  induction is with
  | nil => exact absurd rfl h
  | cons i is ih =>
    cases is with
    | nil => rw [fields, List.splitOn_eq_singleton (hcomma i)]; rfl
    | cons j is =>
      rw [fields, List.splitOn_append_cons_self_of_not_mem (hcomma i), ih (List.cons_ne_nil _ _)]
      · rfl
      · simp

theorem newline_not_mem_fields (is : List Int) : '\n' ∉ fields is := by
  have hline (i : Int) : '\n' ∉ toText i := not_mem_toText (by decide) (by decide)
  induction is with
  | nil => simp [fields]
  | cons i is ih =>
    cases is with
    | nil => exact hline i
    | cons j is =>
      rw [fields]
      · simp [hline, ih]
      · simp

/-! ## Files -/

/-- The lines of a text; the last one may lack its newline. -/
def lines : List Char → List (List Char)
  | [] => []
  | c :: cs =>
    if c = '\n' then [] :: lines cs
    else
      match lines cs with
      | [] => [[c]]
      | l :: ls => (c :: l) :: ls

theorem lines_append_newline {l : List Char} (hl : '\n' ∉ l) (rest : List Char) :
    lines (l ++ '\n' :: rest) = l :: lines rest := by
  induction l with
  | nil => rw [List.nil_append, lines, if_pos rfl]
  | cons c l ih =>
    obtain ⟨hc, hl⟩ := not_or.1 (mt List.mem_cons.2 hl)
    rw [List.cons_append, lines, if_neg (Ne.symm hc), ih hl]

/-- Lines that are written one after the other are read back. -/
theorem lines_flatMap {ls : List (List Char)} (h : ∀ l ∈ ls, '\n' ∉ l) :
    lines (ls.flatMap (· ++ ['\n'])) = ls := by
  induction ls with
  | nil => rfl
  | cons l ls ih =>
    obtain ⟨hl, hls⟩ := List.forall_mem_cons.1 h
    rw [List.flatMap_cons, List.append_assoc, List.singleton_append, lines_append_newline hl,
      ih hls]

end Text
end Sword
