import Sword.Rtl.Minilzo

/-!
# What the decompressor reads

One lemma for each thing `lzo1x_decompress` reads, and two facts about it as a
whole: every step but `match_done` uses up input, so that it stops on every input,
and the copies in chunks of eight bytes are the copies byte by byte.

* `inChunks_literals`, `copyFar_eq` — the chunks make no difference.
* `left`, `left_step`, `run_eq` — the measure, and what it is for.
* `zeros_zerosThen` — a long length is read back.
* `matched_matchBytes` — a match is read back, with up to three literals announced in
  the low bits of its last byte but one.
-/

namespace Sword
namespace Rtl
namespace Minilzo

open Bytes Lz77 Machine

/-! ## Chunks -/

theorem literals_zero (s : Reader) : s.literals 0 = some s := by simp [Reader.literals]

theorem literals_add (m n : Nat) (s : Reader) :
    s.literals (m + n) = s.literals m >>= Reader.literals n := by
  unfold Reader.literals
  by_cases hm : m ≤ s.ahead.length
  · by_cases hn : m + n ≤ s.ahead.length
    · have hn' : n ≤ s.ahead.length - m := by omega
      simp [hm, hn, hn', List.take_add]
    · have hn' : ¬ n ≤ s.ahead.length - m := by omega
      simp [hm, hn, hn']
  · have hn : ¬ m + n ≤ s.ahead.length := by omega
    simp [hm, hn]

theorem inChunks_literals (t : Nat) (s : Reader) :
    inChunks Reader.literals t s = s.literals t :=
  inChunks_eq (f := Reader.literals) literals_zero literals_add rfl rfl rfl t s

/-- A match is copied in chunks only where that is the same as byte by byte. -/
theorem copyFar_eq (mOff t : Nat) (s : Reader) : s.copyFar mOff t = s.copy mOff t := by
  rw [Reader.copyFar, Reader.copy]
  split
  · next h =>
    have hblock {n : Nat} (hn : 0 < n) (hle : n ≤ 8) :
        copyBlock mOff n = copyMatch (α := UInt8) mOff n :=
      funext fun out => copyBlock_eq hn (hle.trans h) out
    rw [inChunks_eq (f := copyMatch mOff) (copyMatch_zero mOff) (copyMatch_add mOff)
      (hblock (by decide) (by decide)) (hblock (by decide) (by decide))
      (hblock (by decide) (by decide))]
  · rfl

/-! ## The measure -/

/-- What is left to read, and one for the labels that read nothing. -/
def left (s : Label × Reader) : Nat :=
  2 * s.2.ahead.length + if s.1 = .entry ∨ s.1 = .matchDone then 1 else 0

@[grind →] theorem ahead_next {s s' : Reader} {b : UInt8} (h : s.next = some (b, s')) :
    s.ahead.length = s'.ahead.length + 1 := by
  obtain ⟨behind, _ | ⟨a, ahead⟩, plain⟩ := s
  · cases h
  · cases h
    rfl

@[grind →] theorem ahead_literals {s s' : Reader} {n : Nat} (h : s.literals n = some s') :
    s'.ahead.length ≤ s.ahead.length := by
  unfold Reader.literals at h
  split at h
  · cases h
    simp
  · cases h

theorem ahead_zeros {base t : Nat} {behind ahead plain : List UInt8} {n : Nat} {s' : Reader}
    (h : Reader.zeros base t behind ahead plain = some (n, s')) :
    s'.ahead.length ≤ ahead.length := by
  induction ahead generalizing t behind with
  | nil => cases h
  | cons b ahead ih =>
    rw [Reader.zeros] at h
    split at h
    · exact (ih h).trans (Nat.le_succ _)
    · cases h
      exact Nat.le_succ _

@[grind →] theorem ahead_length {s s' : Reader} {base t n : Nat}
    (h : s.length base t = some (n, s')) : s'.ahead.length ≤ s.ahead.length := by
  unfold Reader.length at h
  split at h
  · exact ahead_zeros h
  · cases h
    rfl

@[grind →] theorem ahead_copy {s s' : Reader} {mOff t : Nat} (h : s.copy mOff t = some s') :
    s'.ahead = s.ahead := by
  obtain ⟨plain, _, rfl⟩ := Option.map_eq_some_iff.1 h
  rfl

/-- Every step uses up input, or is followed by one that does. -/
theorem left_step (s s' : Label × Reader) (h : step s = some s') : left s' < left s := by
  obtain ⟨label, s⟩ := s
  cases label with
  | entry =>
    simp only [step, Option.bind_eq_bind, Option.pure_def] at h
    grind [left, Option.bind_eq_some_iff]
  | literalRun =>
    simp only [step, inChunks_literals, Option.bind_eq_bind, Option.pure_def] at h
    grind [left, Option.bind_eq_some_iff]
  | firstLiteralRun =>
    simp only [step, Option.bind_eq_bind, Option.pure_def] at h
    grind [left, Option.bind_eq_some_iff]
  | matched t =>
    simp only [step, copyFar_eq, Option.bind_eq_bind, Option.pure_def] at h
    grind [left, Option.bind_eq_some_iff]
  | matchDone =>
    simp only [step, Option.bind_eq_bind, Option.pure_def] at h
    grind [left, Option.bind_eq_some_iff]
  | matchNext t =>
    simp only [step, Option.bind_eq_bind, Option.pure_def] at h
    grind [left, Option.bind_eq_some_iff]
  | eofFound => cases h

/-- What can be reached is what the decompressor returns. -/
theorem lzo1xDecompress_of_reaches {input : List UInt8} {s : Reader}
    (h : Reaches step (.entry, ⟨[], input, []⟩) (.eofFound, s)) :
    lzo1xDecompress input =
      some (if s.ahead = [] then lzoEOk else lzoEInputNotConsumed, s.plain.reverse) := by
  have hhalt (t : Label × Reader) (ht : decide (t.1 = .eofFound) = true) : step t = none := by
    obtain ⟨label, t⟩ := t
    cases of_decide_eq_true ht
    rfl
  have hrun := run_of_reaches (n := 2 * input.length + 2) left_step hhalt h (by simp)
    (by simp [left])
  simp [lzo1xDecompress, hrun]

/-! ## Reading tokens -/

@[simp] theorem next_cons (behind ahead plain : List UInt8) (b : UInt8) :
    Reader.next ⟨behind, b :: ahead, plain⟩ = some (b, ⟨b :: behind, ahead, plain⟩) := rfl

theorem literals_append (behind bs rest plain : List UInt8) :
    Reader.literals bs.length ⟨behind, bs ++ rest, plain⟩ =
      some ⟨put bs behind, rest, put bs plain⟩ := by
  simp [Reader.literals, put]

@[simp] theorem put_nil (op : List UInt8) : put [] op = op := rfl

@[simp] theorem put_cons (b : UInt8) (bs op : List UInt8) :
    put (b :: bs) op = put bs (b :: op) := by
  simp [put]

theorem put_append (bs cs op : List UInt8) : put (bs ++ cs) op = put cs (put bs op) := by
  simp [put]

theorem step_matchDone {c b : UInt8} {behind ahead plain : List UInt8} {k : Nat}
    (hk : b.toNat &&& 3 = k) : step (.matchDone, ⟨c :: b :: behind, ahead, plain⟩) =
      some (if k = 0 then .literalRun else .matchNext k, ⟨c :: b :: behind, ahead, plain⟩) := by
  subst hk
  simp only [step, List.getElem?_cons_succ, List.getElem?_cons_zero, Option.bind_eq_bind,
    Option.bind_some, Option.pure_def]
  split <;> rfl

/-- A length that was written with zeros is read back. -/
theorem zeros_zerosThen {tt : Nat} (htt : 0 < tt) (base t : Nat) (behind rest plain : List UInt8) :
    Reader.zeros base t behind (zerosThen tt ++ rest) plain =
      some (t + (base + tt), ⟨put (zerosThen tt) behind, rest, plain⟩) := by
  fun_induction zerosThen tt generalizing t behind with
  | case1 tt h ih =>
    have hsum : t + 255 + (base + (tt - 255)) = t + (base + tt) := by omega
    simp only [List.cons_append, Reader.zeros, if_true, ih (show 0 < tt - 255 by omega), hsum,
      put_cons]
  | case2 tt h =>
    have hbyte : (UInt8.ofNat tt).toNat = tt := by simp; omega
    have hne : UInt8.ofNat tt ≠ 0 := by
      intro h0
      rw [h0] at hbyte
      simp at hbyte
      omega
    simp [Reader.zeros, hne, hbyte]

/-- A length is read back, from the token or from what follows it. -/
theorem length_read {base t n : Nat} {bs : List UInt8} (h : t ≠ 0 ∧ bs = [] ∧ n = t ∨
    t = 0 ∧ bs = zerosThen (n - base) ∧ base < n) (behind rest plain : List UInt8) :
    Reader.length base t ⟨behind, bs ++ rest, plain⟩ = some (n, ⟨put bs behind, rest, plain⟩) := by
  rcases h with ⟨ht, rfl, rfl⟩ | ⟨rfl, rfl, hn⟩
  · rw [Reader.length, if_neg ht]
    rfl
  · rw [Reader.length, if_pos rfl, zeros_zerosThen (by omega), Nat.zero_add,
      Nat.add_sub_cancel' hn.le]

/-! ### Matches -/

/-- Up to three in the low bits of a byte that leaves them free. -/
theorem toNat_or_low (x : Nat) {k : Nat} (hk : k < 4) :
    (UInt8.ofNat (4 * x) ||| UInt8.ofNat k).toNat = 4 * (x % 64) + k := by
  have hx : 4 * x % 256 = (x % 64) <<< 2 := by rw [Nat.shiftLeft_eq]; omega
  have hk' : k % 256 = k := Nat.mod_eq_of_lt (by omega)
  rw [UInt8.toNat_or, UInt8.toNat_ofNat', UInt8.toNat_ofNat', hx, hk',
    ← Nat.shiftLeft_add_eq_or_of_lt (show k < 2 ^ 2 from hk), Nat.shiftLeft_eq, Nat.mul_comm]

/-- The offset of a far match is read back from its two bytes. -/
theorem ofLeBytes_offset (o : Nat) {k : Nat} (hk : k < 4) :
    ofLeBytes [UInt8.ofNat (o <<< 2) ||| UInt8.ofNat k, UInt8.ofNat (o >>> 6)] >>> 2 =
      o % 0x4000 := by
  have hlo : o <<< 2 = 4 * o := by rw [Nat.shiftLeft_eq, Nat.mul_comm]
  simp only [ofLeBytes, hlo, toNat_or_low o hk, UInt8.toNat_ofNat', Nat.shiftRight_eq_div_pow]
  omega

theorem matchBytes_m2 {mLen o : Nat} (hlen : mLen ≤ 8) (ho : o < 2048) :
    matchBytes mLen (o + 1) =
      [UInt8.ofNat (4 * (8 * (mLen - 1) + o % 8)), UInt8.ofNat (o / 8)] := by
  have hand : o &&& 7 = o % 8 := Nat.and_two_pow_sub_one_eq_mod o 3
  have hlow : (o % 8) <<< 2 < 2 ^ 5 := by rw [Nat.shiftLeft_eq]; omega
  have hfirst : (mLen - 1) <<< 5 ||| (o % 8) <<< 2 = 4 * (8 * (mLen - 1) + o % 8) := by
    rw [← Nat.shiftLeft_add_eq_or_of_lt hlow, Nat.shiftLeft_eq, Nat.shiftLeft_eq]
    omega
  rw [matchBytes, if_pos ⟨hlen, ho⟩]
  simp only [Nat.add_sub_cancel, hand, hfirst, Nat.shiftRight_eq_div_pow, Nat.reducePow]

/-- The bytes before the offset of a far match of `n + 2` bytes: `n` in the low bits of the
marker, or after it. -/
def farHead (marker max n : Nat) : List UInt8 :=
  if n ≤ max then [UInt8.ofNat (marker + n)] else UInt8.ofNat marker :: zerosThen (n - max)

theorem matchBytes_m3 {mLen o : Nat} (hm2 : ¬ (mLen ≤ 8 ∧ o < 2048)) (ho : o < 0x4000)
    (hlen : 4 ≤ mLen) :
    matchBytes mLen (o + 1) =
      farHead 32 31 (mLen - 2) ++ [UInt8.ofNat (o <<< 2), UInt8.ofNat (o >>> 6)] := by
  have hor (h : mLen ≤ 33) : 32 ||| (mLen - 2) = 32 + (mLen - 2) :=
    (Nat.shiftLeft_add_eq_or_of_lt (i := 5) (show mLen - 2 < 2 ^ 5 by omega) 1).symm
  have hm2' : ¬ (mLen ≤ m2MaxLen ∧ o + 1 ≤ m2MaxOffset) := hm2
  have ho' : o + 1 ≤ m3MaxOffset := ho
  rw [matchBytes, if_neg hm2', if_pos ho', farHead]
  by_cases h : mLen ≤ 33
  · have h' : mLen - 2 ≤ 31 := by omega
    simp [h, h', hor h]
  · have h' : ¬ mLen - 2 ≤ 31 := by omega
    have hsub : mLen - 2 - 31 = mLen - 33 := by omega
    simp [h, h', hsub]
    rfl

theorem matchBytes_m4 {mLen o : Nat} (ho : 0 < o) (ho' : o < 0x8000) (hlen : 4 ≤ mLen) :
    matchBytes mLen (o + 0x4000) = farHead (16 + 8 * (o / 0x4000)) 7 (mLen - 2) ++
      [UInt8.ofNat (o <<< 2), UInt8.ofNat (o >>> 6)] := by
  have hmark : 16 ||| (o >>> 11 &&& 8) = 16 + 8 * (o / 0x4000) := by
    have hbits : ∀ q < 16, 16 ||| (q &&& 8) = 16 + 8 * (q / 8) := by decide
    have hshift : o >>> 11 = o / 2048 := Nat.shiftRight_eq_div_pow o 11
    have hdiv : o / 2048 / 8 = o / 0x4000 := Nat.div_div_eq_div_mul o 2048 8
    rw [hshift, hbits _ (by omega), hdiv]
  have hor (h : mLen ≤ 9) : 16 + 8 * (o / 0x4000) ||| (mLen - 2) =
      16 + 8 * (o / 0x4000) + (mLen - 2) := by
    have := Nat.shiftLeft_add_eq_or_of_lt (i := 3) (show mLen - 2 < 2 ^ 3 by omega)
      (2 + o / 0x4000)
    rw [Nat.shiftLeft_eq] at this
    rw [show 16 + 8 * (o / 0x4000) = (2 + o / 0x4000) * 2 ^ 3 by omega]
    exact this.symm
  have hm2 : ¬ (mLen ≤ m2MaxLen ∧ o + 0x4000 ≤ m2MaxOffset) := by
    rintro ⟨-, h⟩
    unfold m2MaxOffset at h
    omega
  have hm3 : ¬ o + 0x4000 ≤ m3MaxOffset := by
    unfold m3MaxOffset
    omega
  rw [matchBytes, if_neg hm2, if_neg hm3, farHead]
  simp only [Nat.add_sub_cancel, m4Marker, hmark]
  by_cases h : mLen ≤ 9
  · have h' : mLen - 2 ≤ 7 := by omega
    simp [h, h', hor h]
  · have h' : ¬ mLen - 2 ≤ 7 := by omega
    have hsub : mLen - 2 - 7 = mLen - 9 := by omega
    simp [h, h', hsub]

/-- The length of a far match is read back. -/
theorem length_farHead {marker max n : Nat} (hmod : marker % (max + 1) = 0)
    (hmax : marker + max < 256) (hn : 0 < n) :
    ∃ m tail, farHead marker max n = m :: tail ∧ marker ≤ m.toNat ∧ m.toNat ≤ marker + max ∧
      ∀ behind rest plain, Reader.length max (m.toNat % (max + 1)) ⟨behind, tail ++ rest, plain⟩ =
        some (n, ⟨put tail behind, rest, plain⟩) := by
  by_cases h : n ≤ max
  · have hm : (UInt8.ofNat (marker + n)).toNat = marker + n := by
      rw [UInt8.toNat_ofNat']
      omega
    have hlow : (marker + n) % (max + 1) = n := by
      rw [Nat.add_mod, hmod, Nat.zero_add, Nat.mod_mod, Nat.mod_eq_of_lt (by omega)]
    refine ⟨_, [], by rw [farHead, if_pos h], ?_, ?_, fun behind rest plain => ?_⟩
    · omega
    · omega
    · rw [hm, hlow]
      exact length_read (Or.inl ⟨by omega, rfl, rfl⟩) behind rest plain
  · have hm : (UInt8.ofNat marker).toNat = marker := by
      rw [UInt8.toNat_ofNat']
      omega
    refine ⟨_, _, by rw [farHead, if_neg h], hm.ge, by omega, fun behind rest plain => ?_⟩
    rw [hm, hmod]
    exact length_read (Or.inr ⟨rfl, rfl, by omega⟩) behind rest plain

/-- What stands for a match: `front`, and two bytes of which the first has its two low bits
free.  Whatever number of literals is put there, the decompressor goes from the first byte of
the token to `match_done` behind its last. -/
structure Token (bs : List UInt8) (mLen mOff : Nat) (front : List UInt8) (b c : UInt8) : Prop where
  eq : bs = front ++ [b, c]
  low : b.toNat % 4 = 0
  read : ∀ k < 4, ∃ m tail, front ++ [b ||| UInt8.ofNat k, c] = m :: tail ∧ 16 ≤ m.toNat ∧
    ∀ behind rest plain plain', copyMatch mOff mLen plain = some plain' →
      step (.matched m.toNat, ⟨m :: behind, tail ++ rest, plain⟩) =
        some (.matchDone, ⟨put (m :: tail) behind, rest, plain'⟩)

theorem token_m2 {mLen o : Nat} (hlen : 4 ≤ mLen) (hlen' : mLen ≤ 8) (ho : o < 2048) :
    ∃ front b c, Token (matchBytes mLen (o + 1)) mLen (o + 1) front b c := by
  refine ⟨[], _, _, matchBytes_m2 hlen' ho, ?_, fun k hk => ?_⟩
  · rw [UInt8.toNat_ofNat']
    omega
  · have hm := toNat_or_low (8 * (mLen - 1) + o % 8) hk
    have hb : (UInt8.ofNat (o / 8)).toNat = o / 8 := by
      rw [UInt8.toNat_ofNat']
      omega
    refine ⟨_, _, rfl, by rw [hm]; omega, fun behind rest plain plain' hcopy => ?_⟩
    generalize UInt8.ofNat (4 * (8 * (mLen - 1) + o % 8)) ||| UInt8.ofNat k = m at hm ⊢
    have hoff : 1 + (m.toNat >>> 2 &&& 7) + (o / 8) <<< 3 = o + 1 := by
      rw [show m.toNat >>> 2 &&& 7 = m.toNat >>> 2 % 8 from Nat.and_two_pow_sub_one_eq_mod _ 3,
        hm, Nat.shiftRight_eq_div_pow, Nat.shiftLeft_eq]
      omega
    have hlen : m.toNat >>> 5 - 1 + 2 = mLen := by
      rw [hm, Nat.shiftRight_eq_div_pow]
      omega
    have h64 : 64 ≤ m.toNat := by omega
    simp [step, h64, Reader.copy, hb, hoff, hlen, hcopy, put]

section Far
variable {s : Reader} {behind rest plain : List UInt8} {lo hi : UInt8} {t n o : Nat}

theorem step_m3 (ht : 32 ≤ t) (ht' : t ≤ 63)
    (hlen : s.length 31 (t % 32) = some (n, ⟨behind, lo :: hi :: rest, plain⟩)) :
    step (.matched t, s) =
      (copyMatch (1 + ofLeBytes [lo, hi] >>> 2) (n + 2) plain).map fun plain =>
        (.matchDone, ⟨hi :: lo :: behind, rest, plain⟩) := by
  have h64 : ¬ 64 ≤ t := by omega
  have hand : t &&& 31 = t % 32 := Nat.and_two_pow_sub_one_eq_mod t 5
  simp only [step, h64, ht, if_false, if_true, hand, hlen, copyFar_eq, Reader.copy, next_cons,
    Option.bind_eq_bind, Option.bind_some, Option.pure_def]
  cases copyMatch (1 + ofLeBytes [lo, hi] >>> 2) (n + 2) plain <;> rfl

theorem step_m4 (ht : 16 ≤ t) (ht' : t ≤ 31)
    (hlen : s.length 7 (t % 8) = some (n, ⟨behind, lo :: hi :: rest, plain⟩))
    (ho : (t &&& 8) <<< 11 + ofLeBytes [lo, hi] >>> 2 = o) (hpos : o ≠ 0) :
    step (.matched t, s) = (copyMatch (o + 0x4000) (n + 2) plain).map fun plain =>
      (.matchDone, ⟨hi :: lo :: behind, rest, plain⟩) := by
  have h64 : ¬ 64 ≤ t := by omega
  have h32 : ¬ 32 ≤ t := by omega
  have hand : t &&& 7 = t % 8 := Nat.and_two_pow_sub_one_eq_mod t 3
  simp only [step, h64, h32, ht, if_false, if_true, hand, hlen, copyFar_eq, Reader.copy, next_cons,
    Option.bind_eq_bind, Option.bind_some, Option.pure_def, ho, hpos]
  cases copyMatch (o + 0x4000) (n + 2) plain <;> rfl

end Far

/-- A far match is a token, if the decompressor reads its length and offset as they are. -/
theorem token_far {mLen mOff o marker max : Nat} (hlen : 4 ≤ mLen)
    (hbytes : matchBytes mLen mOff =
      farHead marker max (mLen - 2) ++ [UInt8.ofNat (o <<< 2), UInt8.ofNat (o >>> 6)])
    (hmod : marker % (max + 1) = 0) (hmax : marker + max < 256) (hmarker : 16 ≤ marker)
    (hstep : ∀ t, marker ≤ t → t ≤ marker + max → ∀ {s behind lo hi rest plain},
      s.length max (t % (max + 1)) = some (mLen - 2, ⟨behind, lo :: hi :: rest, plain⟩) →
      ofLeBytes [lo, hi] >>> 2 = o % 0x4000 →
      step (.matched t, s) = (copyMatch mOff (mLen - 2 + 2) plain).map fun plain =>
        (.matchDone, ⟨hi :: lo :: behind, rest, plain⟩)) :
    ∃ front b c, Token (matchBytes mLen mOff) mLen mOff front b c := by
  obtain ⟨m, tail, hhead, hm, hm', hread⟩ := length_farHead hmod hmax (show 0 < mLen - 2 by omega)
  refine ⟨_, _, _, hbytes, ?_, fun k hk => ?_⟩
  · rw [UInt8.toNat_ofNat', Nat.shiftLeft_eq]
    omega
  · refine ⟨m, tail ++ [UInt8.ofNat (o <<< 2) ||| UInt8.ofNat k, UInt8.ofNat (o >>> 6)],
      by rw [hhead]; rfl, hmarker.trans hm, fun behind rest plain plain' hcopy => ?_⟩
    have hlen' : mLen - 2 + 2 = mLen := by omega
    have hst := hstep m.toNat hm hm' (hread (m :: behind) (_ :: _ :: rest) plain)
      (ofLeBytes_offset o hk)
    rw [hlen', hcopy, Option.map_some] at hst
    rw [put_cons, put_append, put_cons, put_cons, put_nil, ← hst]
    simp

/-- Every match the compressor can find is written as a token. -/
theorem token_matchBytes {mLen mOff : Nat} (hlen : 4 ≤ mLen) (hoff : 0 < mOff)
    (hoff' : mOff < 49152) : ∃ front b c, Token (matchBytes mLen mOff) mLen mOff front b c := by
  rcases Nat.lt_or_ge 0x4000 mOff with hfar | hnear
  · obtain ⟨o, rfl⟩ := Nat.exists_eq_add_of_le' hfar.le
    have ho : 0 < o := by omega
    refine token_far hlen (matchBytes_m4 ho (by omega) hlen) (by omega) (by omega) (by omega)
      fun t ht ht' => fun hread hval => step_m4 (by omega) (by omega) hread ?_ ho.ne'
    have hand : t &&& 8 = 8 * (o / 0x4000) := by
      have hbits : ∀ t < 32, t &&& 8 = 8 * (t / 8 % 2) := by decide
      rw [hbits t (by omega)]
      omega
    rw [hand, hval, Nat.shiftLeft_eq]
    omega
  · obtain ⟨o, rfl⟩ := Nat.exists_eq_succ_of_ne_zero hoff.ne'
    have ho : o < 0x4000 := hnear
    by_cases hm2 : mLen ≤ 8 ∧ o < 2048
    · exact token_m2 hlen hm2.1 hm2.2
    · refine token_far hlen (matchBytes_m3 hm2 ho hlen) (by omega) (by omega) (by omega)
        fun t ht ht' => fun hread hval => ?_
      rw [step_m3 ht ht' hread, hval, Nat.mod_eq_of_lt ho, Nat.add_comm 1 o]

end Minilzo
end Rtl
end Sword
