import Sword.Rtl.MinilzoReads
import Sword.Rtl.MinilzoWrites
import Sword.Rtl.Thread

/-!
# Decompression inverts compression

The compressor writes a token at a time, and a token is not final when it is
written: up to three literals that follow a match are announced in the last byte but
one of the match.  So what is carried from one token to the next is a statement about
everything that can still happen: whatever these two bits become and whatever
follows, the decompressor gets behind the token with the text so far.

* `Matched`, `Carried`, `Ready`, `Ended` — what the bytes written so far stand for: after
  a match, before literals, before a match, and at the end.
* `putLiterals_spec`, `Ready.matched` — literals and matches carry it on.
* `CoreInv`, `coreInv_turn`, `coreInv_loop` — the invariant of a chunk.
* `chunks_spec`, `putLast_spec`, `lzo1xCompress_spec` — and of the whole.
* `lzo1x_roundTrip` — the round trip, and the bounds on the size.
* `minilzo` — so the library is one that the runtime and the analyzer can rely on.
-/

namespace Sword
namespace Rtl
namespace Minilzo

open Bytes Lz77 Machine

/-! ## What is written -/

/-- The decompressor, at the beginning of some bytes. -/
abbrev start (bs : List UInt8) : Label × Reader := (.entry, ⟨[], bs, []⟩)

/-- The text up to a position, the latest byte first. -/
abbrev upTo (input : List UInt8) (p : Nat) : List UInt8 := (input.take p).reverse

/-- A match is the last thing written, and the text so far ends at `p`. -/
def Matched (input : List UInt8) (p : Nat) (op : List UInt8) : Prop :=
  ∃ c b pre, op = c :: b :: pre ∧ b.toNat % 4 = 0 ∧ ∀ k < 4, ∀ rest,
    Reaches step (start ((c :: (b ||| UInt8.ofNat k) :: pre).reverse ++ rest))
      (.matchDone, ⟨c :: (b ||| UInt8.ofNat k) :: pre, rest, upTo input p⟩)

/-- Nothing is written yet, or a match was the last. -/
def Carried (input : List UInt8) (p : Nat) (op : List UInt8) : Prop :=
  op = [] ∧ p = 0 ∨ Matched input p op

/-- The text so far ends at `p`, and a match can follow. -/
def Ready (input : List UInt8) (p : Nat) (op : List UInt8) : Prop :=
  ∀ m : UInt8, 16 ≤ m.toNat → ∀ rest,
    Reaches step (start (op.reverse ++ m :: rest)) (.matched m.toNat, ⟨m :: op, rest, upTo input p⟩)

variable {input op : List UInt8} {p t : Nat}

theorem put_upTo (input : List UInt8) (p t : Nat) :
    put ((input.drop p).take t) (upTo input p) = upTo input (p + t) := by
  rw [put, ← List.reverse_append, ← List.take_add]

theorem or_zero_byte (b : UInt8) : b ||| UInt8.ofNat 0 = b := by simp

/-- The bits that are read are the ones that were put there. -/
theorem and_three {b : UInt8} (hb : b.toNat % 4 = 0) {k : Nat} (hk : k < 4) :
    (b ||| UInt8.ofNat k).toNat &&& 3 = k := by
  have hand (n : Nat) : n &&& 3 = n % 4 := Nat.and_two_pow_sub_one_eq_mod n 2
  obtain ⟨x, hx⟩ : 4 ∣ b.toNat := Nat.dvd_of_mod_eq_zero hb
  have hbx : b = UInt8.ofNat (4 * x) := by rw [← hx, UInt8.ofNat_toNat]
  rw [hand, hbx, toNat_or_low x hk]
  omega

/-! ### Literals -/

/-- After a match without announced literals, and at the beginning, literals are expected. -/
theorem Carried.literalRun (h : Carried input p op) {f : UInt8} (hf : f.toNat ≤ 17)
    (rest : List UInt8) : Reaches step (start (op.reverse ++ f :: rest))
      (.literalRun, ⟨op, f :: rest, upTo input p⟩) := by
  rcases h with ⟨rfl, rfl⟩ | ⟨c, b, pre, rfl, hb, hread⟩
  · refine Reaches.of_step ?_
    have hf' : ¬ 17 < f.toNat := by omega
    simp [step, hf']
  · have h0 := hread 0 (by decide) (f :: rest)
    have hbits := and_three hb (show 0 < 4 by decide)
    rw [or_zero_byte] at h0 hbits
    exact h0.trans (Reaches.of_step (step_matchDone hbits))

/-- No literals: the next match follows at once. -/
theorem Matched.ready (h : Matched input p op) : Ready input p op := by
  intro m hm rest
  have hne : op ≠ [] := by
    obtain ⟨c, b, pre, rfl, -⟩ := h
    simp
  obtain ⟨c, b, pre, rfl, hb, hread⟩ := h
  have h0 := hread 0 (by decide) (m :: rest)
  have hbits := and_three hb (show 0 < 4 by decide)
  rw [or_zero_byte] at h0 hbits
  refine h0.trans (Reaches.step_trans (step_matchDone hbits) (Reaches.of_step ?_))
  simp [step, hm]

/-- Up to three literals are announced by the match before them. -/
theorem Matched.ready_few (h : Matched input p op) (ht : 0 < t) (ht' : t ≤ 3)
    (hlen : p + t ≤ input.length) : ∃ op', orBack t op = some op' ∧
      op'.length = op.length ∧ Ready input (p + t) (put ((input.drop p).take t) op') := by
  obtain ⟨c, b, pre, rfl, hb, hread⟩ := h
  refine ⟨_, rfl, rfl, fun m hm rest => ?_⟩
  have ht4 : t < 4 := by omega
  have hk := hread t ht4 ((input.drop p).take t ++ m :: rest)
  have hbits := and_three hb ht4
  have hlit := literals_append (c :: (b ||| UInt8.ofNat t) :: pre) ((input.drop p).take t)
    (m :: rest) (upTo input p)
  rw [List.length_take, List.length_drop, Nat.min_eq_left (by omega), put_upTo] at hlit
  have hsplit :
      (put ((input.drop p).take t) (c :: (b ||| UInt8.ofNat t) :: pre)).reverse ++ m :: rest =
        (c :: (b ||| UInt8.ofNat t) :: pre).reverse ++ ((input.drop p).take t ++ m :: rest) := by
    simp [put]
  rw [hsplit]
  refine hk.trans (Reaches.step_trans (step_matchDone hbits) (Reaches.of_step ?_))
  simp [step, ht.ne', hlit]

/-- Four literals or more have a token of their own. -/
theorem Carried.ready_run (h : Carried input p op) (ht : 4 ≤ t) (hlen : p + t ≤ input.length) :
    Ready input (p + t) (put ((input.drop p).take t) (put (farHead 0 15 (t - 3)) op)) := by
  intro m hm rest
  obtain ⟨f, tail, hhead, -, hf, hread⟩ :=
    length_farHead (show 0 % (15 + 1) = 0 from rfl) (by decide) (show 0 < t - 3 by omega)
  have hrun := h.literalRun (f := f) (by omega) (tail ++ ((input.drop p).take t ++ m :: rest))
  have hsplit : (put ((input.drop p).take t) (put (farHead 0 15 (t - 3)) op)).reverse ++ m :: rest
      = op.reverse ++ f :: (tail ++ ((input.drop p).take t ++ m :: rest)) := by
    simp [put, hhead]
  have hlit := literals_append (put tail (f :: op)) ((input.drop p).take t) (m :: rest)
    (upTo input p)
  rw [List.length_take, List.length_drop, Nat.min_eq_left (by omega), put_upTo] at hlit
  have hn : t - 3 + 3 = t := by omega
  have hlow := hread (f :: op) ((input.drop p).take t ++ m :: rest) (upTo input p)
  rw [Nat.mod_eq_of_lt (by omega)] at hlow
  have hf16 : ¬ 16 ≤ f.toNat := by omega
  rw [hsplit, hhead, put_cons]
  have hcopied : step (.literalRun,
      ⟨op, f :: (tail ++ ((input.drop p).take t ++ m :: rest)), upTo input p⟩) = some
      (.firstLiteralRun, ⟨put ((input.drop p).take t) (put tail (f :: op)), m :: rest,
        upTo input (p + t)⟩) := by
    simp [step, hf16, hlow, inChunks_literals, hn, hlit]
  refine hrun.trans (Reaches.step_trans hcopied (Reaches.of_step ?_))
  simp [step, hm]

/-- The whole text as the first literals. -/
theorem ready_first (ht : 0 < t) (ht' : t ≤ 238) (hlen : t ≤ input.length) :
    Ready input t (put (input.take t) [UInt8.ofNat (17 + t)]) := by
  intro m hm rest
  have hf : (UInt8.ofNat (17 + t)).toNat = 17 + t := by
    rw [UInt8.toNat_ofNat']
    omega
  generalize UInt8.ofNat (17 + t) = f at hf ⊢
  have hlit := literals_append [f] (input.take t) (m :: rest) []
  rw [List.length_take, Nat.min_eq_left hlen] at hlit
  have hsplit : (put (input.take t) [f]).reverse ++ m :: rest =
      f :: (input.take t ++ m :: rest) := by simp [put]
  have h17 : 17 < f.toNat := by omega
  have hsub : f.toNat - 17 = t := by omega
  have hplain : put (input.take t) [] = upTo input t := List.append_nil _
  rw [hplain] at hlit
  rw [hsplit]
  by_cases ht4 : t < 4
  · have hentry : step (start (f :: (input.take t ++ m :: rest))) =
        some (.matchNext t, ⟨[f], input.take t ++ m :: rest, []⟩) := by
      simp [step, h17, hsub, ht4]
    refine Reaches.step_trans hentry (Reaches.of_step ?_)
    simp [step, hlit]
  · have hentry : step (start (f :: (input.take t ++ m :: rest))) =
        some (.firstLiteralRun, ⟨put (input.take t) [f], m :: rest, upTo input t⟩) := by
      simp [step, h17, hsub, ht4, hlit]
    refine Reaches.step_trans hentry (Reaches.of_step ?_)
    simp [step, hm]

/-! ### Matches and the end -/

/-- A match that is there is carried on. -/
theorem Ready.matched (h : Ready input p op) {mPos mLen : Nat} (hpos : mPos < p)
    (hfar : p < mPos + 49152) (hlen : 4 ≤ mLen) (hend : p + mLen ≤ input.length)
    (hsame : Same input p mPos mLen) :
    Matched input (p + mLen) (put (matchBytes mLen (p - mPos)) op) := by
  obtain ⟨front, b, c, htok⟩ := token_matchBytes hlen (show 0 < p - mPos by omega) (by omega)
  refine ⟨c, b, put front op, by rw [htok.eq, put_append]; rfl, htok.low, fun k hk rest => ?_⟩
  obtain ⟨m, tail, htail, hm, hread⟩ := htok.read k hk
  have hcopy : copyMatch (p - mPos) mLen (upTo input p) = some (upTo input (p + mLen)) := by
    refine copyMatch_take (by omega) (by omega) hend fun i hi => ?_
    rw [hsame i hi]
    congr 1
    omega
  have hput : c :: (b ||| UInt8.ofNat k) :: put front op = put (m :: tail) op := by
    rw [← htail, put_append]
    rfl
  have hsplit : (put (m :: tail) op).reverse ++ rest = op.reverse ++ m :: (tail ++ rest) := by
    simp [put]
  rw [hput, hsplit]
  exact (h m hm (tail ++ rest)).trans (Reaches.of_step (hread op rest _ _ hcopy))

/-- With the end marker behind it, all of the text is read back, and nothing of what follows. -/
def Ended (input op : List UInt8) : Prop := ∀ rest,
  lzo1xDecompress (op.reverse ++ rest) =
    some (if rest = [] then lzoEOk else lzoEInputNotConsumed, input)

/-- Three bytes more end the text. -/
theorem ended_of_matched (h : ∀ rest, Reaches step (start (op.reverse ++ 17 :: rest))
    (.matched 17, ⟨17 :: op, rest, upTo input input.length⟩)) :
    Ended input (put [UInt8.ofNat (m4Marker ||| 1), 0, 0] op) := by
  intro rest
  have hend : step (.matched 17, ⟨17 :: op, 0 :: 0 :: rest, upTo input input.length⟩) =
      some (.eofFound, ⟨0 :: 0 :: 17 :: op, rest, upTo input input.length⟩) := by
    simp [step, Reader.length, ofLeBytes]
  have hall := lzo1xDecompress_of_reaches ((h (0 :: 0 :: rest)).trans (Reaches.of_step hend))
  have hbytes : (put [UInt8.ofNat (m4Marker ||| 1), 0, 0] op).reverse ++ rest =
      op.reverse ++ 17 :: 0 :: 0 :: rest := by
    simp [put]
    rfl
  rw [hbytes, hall]
  simp

theorem Ready.ended (h : Ready input input.length op) :
    Ended input (put [UInt8.ofNat (m4Marker ||| 1), 0, 0] op) :=
  ended_of_matched fun rest => h 17 (by decide) rest

/-- Where nothing was written, the end marker is the first thing read. -/
theorem ended_nil : Ended [] (put [UInt8.ofNat (m4Marker ||| 1), 0, 0] []) := by
  refine ended_of_matched fun rest => ?_
  have hcarried : Carried [] 0 [] := Or.inl ⟨rfl, rfl⟩
  have hrun := hcarried.literalRun (show (17 : UInt8).toNat ≤ 17 by decide) rest
  exact hrun.trans (Reaches.of_step rfl)

/-! ## Sizes -/

theorem length_put (bs op : List UInt8) : (put bs op).length = bs.length + op.length := by
  simp [put]

theorem length_zerosThen {tt : Nat} (h : 0 < tt) : (zerosThen tt).length = (tt - 1) / 255 + 1 := by
  fun_induction zerosThen tt with
  | case1 tt hlt ih =>
    rw [List.length_cons, ih (by omega)]
    omega
  | case2 tt hle =>
    rw [List.length_singleton]
    omega

theorem length_farHead_le (marker max n : Nat) :
    (farHead marker max n).length ≤ 1 + (n - max + 254) / 255 := by
  unfold farHead
  split
  · exact Nat.le_add_right 1 _
  · rw [List.length_cons, length_zerosThen (by omega)]
    omega

theorem length_farHead_pos (marker max n : Nat) : 0 < (farHead marker max n).length := by
  unfold farHead
  split <;> simp

/-- A match takes less than the text it stands for. -/
theorem length_matchBytes {mLen mOff : Nat} (hlen : 4 ≤ mLen) (hoff : 0 < mOff)
    (hoff' : mOff < 49152) : 2 ≤ (matchBytes mLen mOff).length ∧
      (matchBytes mLen mOff).length ≤ 3 + (mLen - 9 + 254) / 255 := by
  rcases Nat.lt_or_ge 0x4000 mOff with hfar | hnear
  · obtain ⟨o, rfl⟩ := Nat.exists_eq_add_of_le' hfar.le
    have h := length_farHead_le (16 + 8 * (o / 0x4000)) 7 (mLen - 2)
    rw [matchBytes_m4 (by omega) (by omega) hlen, List.length_append]
    simp only [List.length_cons, List.length_nil]
    omega
  · obtain ⟨o, rfl⟩ := Nat.exists_eq_succ_of_ne_zero hoff.ne'
    by_cases hm2 : mLen ≤ 8 ∧ o < 2048
    · rw [matchBytes_m2 hm2.1 hm2.2]
      simp only [List.length_cons, List.length_nil]
      omega
    · have h := length_farHead_le 32 31 (mLen - 2)
      rw [matchBytes_m3 hm2 hnear hlen, List.length_append]
      simp only [List.length_cons, List.length_nil]
      omega

/-- What is written for `p` bytes is at most a sixteenth longer, and not very short. -/
def Sized (p : Nat) (op : List UInt8) : Prop :=
  16 * op.length ≤ 17 * p ∧ (op = [] ∨ 5 ≤ op.length)

/-! ## One chunk -/

/-- The bytes before a run of literals. -/
def headSize (t : Nat) : Nat := if t ≤ 3 then 0 else 1 + (t - 18 + 254) / 255

theorem bytesAt_eq {n : Nat} (h : p + n ≤ input.length) :
    bytesAt n input p = some ((input.drop p).take n) := by
  simp [bytesAt, h]

theorem length_slice (h : p + t ≤ input.length) : ((input.drop p).take t).length = t := by
  simp
  omega

/-- The token of a run of literals, as the source writes it. -/
theorem farHead_literals (t : Nat) : farHead 0 15 (t - 3) =
    if t ≤ 18 then [UInt8.ofNat (t - 3)] else 0 :: zerosThen (t - 18) := by
  have hiff : t - 3 ≤ 15 ↔ t ≤ 18 := by omega
  rw [farHead, Nat.zero_add, Nat.sub_sub]
  simp only [hiff]
  rfl

/-- The literals before a match: they are read inside of the input, and a match can follow. -/
theorem putLiterals_spec (h : Carried input p op) (hs : op = [] ∨ 5 ≤ op.length)
    (hfew : op = [] → 4 ≤ t) (hlen : p + t ≤ input.length) (hroom : p + 16 ≤ input.length) :
    ∃ op', putLiterals input p t op = some op' ∧ Ready input (p + t) op' ∧
      op'.length ≤ op.length + t + headSize t ∧ 5 ≤ op'.length := by
  have hslice := length_slice hlen
  have hmatched (ht : t ≤ 3) : Matched input p op := by
    rcases h with ⟨hnil, -⟩ | hm
    · exact absurd (hfew hnil) (by omega)
    · exact hm
  have hlong (ht : t ≤ 3) : 5 ≤ op.length := by
    rcases hs with hnil | hlong
    · exact absurd (hfew hnil) (by omega)
    · exact hlong
  rcases Nat.lt_or_ge 3 t with ht | ht
  · -- a token of its own, in whichever way the literals are copied
    refine ⟨_, ?_, h.ready_run ht hlen, ?_, ?_⟩
    · have h0 : t ≠ 0 := by omega
      have h3 : ¬ t ≤ 3 := by omega
      by_cases h16 : t ≤ 16
      · have h18 : t ≤ 18 := by omega
        simp [putLiterals, h0, h3, h16, h18, bytesAt_eq hroom, List.take_take, farHead_literals]
      · simp [putLiterals, h0, h3, h16, bytesAt_eq hlen, farHead_literals]
    · have hle := length_farHead_le 0 15 (t - 3)
      rw [length_put, length_put, hslice, headSize, if_neg (by omega)]
      omega
    · have hpos := length_farHead_pos 0 15 (t - 3)
      rw [length_put, length_put, hslice]
      omega
  · have hop := hlong ht
    rcases Nat.eq_zero_or_pos t with rfl | hpos
    · exact ⟨op, rfl, (hmatched ht).ready, by omega, hop⟩
    · obtain ⟨op', hor, hsame, hready⟩ := (hmatched ht).ready_few hpos ht hlen
      refine ⟨_, ?_, hready, ?_, ?_⟩
      · simp [putLiterals, hpos.ne', ht, hor, bytesAt_eq (show p + 4 ≤ input.length by omega),
          List.take_take, show t ≤ 4 by omega]
      · rw [length_put, hslice]
        omega
      · rw [length_put]
        omega

/-- What holds at the label `next`, in the chunk from `base` to `inEnd`. -/
structure CoreInv (input : List UInt8) (base inEnd : Nat) (s : Core) : Prop where
  ti_le : s.ti ≤ s.ii
  ii_le : s.ii ≤ inEnd
  ii_ip : s.ii ≤ s.ip
  /-- Every entry of the dictionary is a position before this one. -/
  dict_lt : ∀ i, base + (s.dict i).toNat < s.ip
  carried : Carried input (s.ii - s.ti) s.op
  sized : Sized (s.ii - s.ti) s.op
  /-- The first literals are too many to be announced by a match. -/
  many : s.op = [] → s.ii - s.ti + 4 ≤ s.ip

variable {base inEnd : Nat} {s : Core}

/-- Going on without a match. -/
theorem CoreInv.skip (h : CoreInv input base inEnd s) {ip : Nat}
    {dict : Fin (2 ^ dBits) → UInt16} (hip : s.ip ≤ ip)
    (hdict : ∀ i, base + (dict i).toNat < ip) :
    CoreInv input base inEnd { s with ip, dict } where
  ti_le := h.ti_le
  ii_le := h.ii_le
  ii_ip := h.ii_ip.trans hip
  dict_lt := hdict
  carried := h.carried
  sized := h.sized
  many hnil := (h.many hnil).trans hip

/-- The dictionary is behind every later position. -/
theorem CoreInv.dict_update (h : CoreInv input base inEnd s) (hchunk : s.ip < base + 49152)
    (k : Fin (2 ^ dBits)) {ip : Nat} (hip : s.ip < ip) (i : Fin (2 ^ dBits)) :
    base + (Function.update s.dict k (UInt16.ofNat (s.ip - base)) i).toNat < ip := by
  have hi := h.dict_lt i
  rw [Function.update_apply]
  split
  · rw [UInt16.toNat_ofNat']
    omega
  · omega

/-- One turn is possible, goes forward, and keeps the invariant. -/
theorem coreInv_turn (h : CoreInv input base inEnd s) (hend : inEnd ≤ input.length)
    (hchunk : inEnd ≤ base + 49152) (hip : s.ip + 20 < inEnd) :
    ∃ s', s.turn input base (inEnd - 20) = some s' ∧ CoreInv input base inEnd s' ∧
      s.ip < s'.ip := by
  have hdv := uaGet_eq (w := 4) (show s.ip + 4 ≤ input.length by omega)
  generalize ofLeBytes ((input.drop s.ip).take 4) = dv at hdv
  have hpos := h.dict_lt (dindex dv)
  have hdv' := uaGet_eq (w := 4)
    (show base + (s.dict (dindex dv)).toNat + 4 ≤ input.length by omega)
  generalize ofLeBytes ((input.drop (base + (s.dict (dindex dv)).toNat)).take 4) = dv' at hdv'
  have hdict {ip : Nat} (hip : s.ip < ip) := h.dict_update (by omega) (dindex dv) hip
  by_cases hne : dv = dv'
  · subst hne
    have hii := h.ii_ip
    have hlen : s.ii - s.ti + (s.ip - (s.ii - s.ti)) = s.ip := by omega
    obtain ⟨op', hop, hready, hsize, hlong⟩ := putLiterals_spec (t := s.ip - (s.ii - s.ti))
      h.carried h.sized.2 (fun hnil => by have := h.many hnil; omega) (by omega) (by omega)
    obtain ⟨mLen, hm, hm4, hmend, hmsame⟩ := matchLength_spec hpos.le
      (show inEnd - 20 + 20 ≤ input.length by omega) (by omega) (same_of_uaGet hdv hdv')
    rw [hlen] at hready
    have hmatched := hready.matched hpos (by omega) hm4 (by omega) hmsame
    have hbytes := length_matchBytes hm4
      (show 0 < s.ip - (base + (s.dict (dindex dv)).toNat) by omega) (by omega)
    refine ⟨_, by simp [Core.turn, hdv, hdv', hop, hm]; rfl, ⟨?_, ?_, ?_, ?_, ?_, ?_, ?_⟩, ?_⟩
    · exact Nat.zero_le _
    · dsimp only
      omega
    · exact le_rfl
    · exact hdict (by dsimp only; omega)
    · exact Or.inr hmatched
    · have hold := h.sized.1
      constructor
      · dsimp only
        rw [length_put]
        unfold headSize at hsize
        split at hsize <;> omega
      · exact Or.inr (by rw [length_put]; omega)
    · intro hnil
      have hl := congrArg List.length hnil
      rw [length_put] at hl
      simp only [List.length_nil] at hl
      omega
    · dsimp only
      omega
  · refine ⟨_, by simp [Core.turn, hdv, hdv', hne]; rfl, h.skip ?_ ?_, ?_⟩
    · exact Nat.le_add_right _ _
    · exact hdict (by dsimp only; omega)
    · dsimp only
      omega

/-- So are the turns of a chunk, and the fuel is enough for them. -/
theorem coreInv_loop (h : CoreInv input base inEnd s) (hend : inEnd ≤ input.length)
    (hchunk : inEnd ≤ base + 49152) {fuel : Nat} (hfuel : inEnd - 20 - s.ip < fuel)
    (h20 : 20 ≤ inEnd) :
    ∃ s', s.loop input base (inEnd - 20) fuel = some s' ∧ CoreInv input base inEnd s' := by
  induction fuel generalizing s with
  | zero => omega
  | succ fuel ih =>
    by_cases hip : inEnd - 20 ≤ s.ip
    · exact ⟨s, by rw [Core.loop, if_pos hip], h⟩
    · obtain ⟨s', hturn, hinv, hlt⟩ := coreInv_turn h hend hchunk (by omega)
      obtain ⟨t, hloop, ht⟩ := ih hinv (by omega)
      exact ⟨t, by rw [Core.loop, if_neg hip, hturn]; exact hloop, ht⟩

/-- One chunk: what is carried into it, and what is carried on. -/
theorem doCompress_spec {inLen ti : Nat} (hti : ti ≤ base) (hlen : 20 < inLen)
    (hlen' : inLen ≤ 49152) (hend : base + inLen ≤ input.length)
    (h : Carried input (base - ti) op) (hs : Sized (base - ti) op) :
    ∃ op' t, doCompress input base inLen op ti = some (op', t) ∧ t ≤ base + inLen ∧
      Carried input (base + inLen - t) op' ∧ Sized (base + inLen - t) op' := by
  have hinv : CoreInv input base (base + inLen)
      (Core.literal ⟨base + (if ti < 4 then 4 - ti else 0), base, ti, fun _ => 0, op⟩) := by
    refine ⟨hti, Nat.le_add_right _ _, ?_, fun i => ?_, h, hs, fun _ => ?_⟩
    · simp only [Core.literal]
      omega
    · simp only [Core.literal, UInt16.toNat_zero]
      omega
    · simp only [Core.literal]
      split <;> omega
  have hbase : base ≤ _ := hinv.ii_ip
  obtain ⟨s', hloop, hinv'⟩ := coreInv_loop hinv hend (by omega)
    (show base + inLen - 20 - (Core.literal _).ip < inLen + 1 by omega) (by omega)
  have hle := hinv'.ii_le
  have hpos : base + inLen - (base + inLen - (s'.ii - s'.ti)) = s'.ii - s'.ti := by omega
  refine ⟨s'.op, base + inLen - (s'.ii - s'.ti), ?_, Nat.sub_le _ _, ?_, ?_⟩
  · simp only [doCompress, hloop, Option.bind_eq_bind, Option.bind_some, Option.pure_def]
  · rw [hpos]
    exact hinv'.carried
  · rw [hpos]
    exact hinv'.sized

/-! ## All chunks -/

/-- The chunks, one after the other. -/
theorem chunks_spec {l : Nat} (hl : l ≤ input.length) (ht : t ≤ input.length - l)
    (h : Carried input (input.length - l - t) op) (hs : Sized (input.length - l - t) op) :
    ∃ op' t', chunks input op l t = some (op', t') ∧ t' ≤ input.length ∧
      Carried input (input.length - t') op' ∧ Sized (input.length - t') op' := by
  have hsub : input.length - l - t = input.length - (t + l) := by omega
  induction l using Nat.strong_induction_on generalizing op t with
  | _ l ih =>
    have hrest : ∃ op' t', some (op, t + l) = some (op', t') ∧ t' ≤ input.length ∧
        Carried input (input.length - t') op' ∧ Sized (input.length - t') op' := by
      rw [hsub] at h hs
      exact ⟨op, t + l, rfl, by omega, h, hs⟩
    rw [chunks]
    split
    · next h20 =>
      dsimp only
      split
      · exact hrest
      · obtain ⟨op₁, t₁, hdo, ht₁, hc₁, hs₁⟩ := doCompress_spec ht
          (show 20 < min l 49152 by omega) (by omega) (by omega) h hs
        have hnext : input.length - l + min l 49152 = input.length - (l - min l 49152) := by omega
        rw [hnext] at ht₁ hc₁ hs₁
        simp only [hdo, Option.bind_eq_bind, Option.bind_some]
        exact ih _ (by omega) (by omega) ht₁ hc₁ hs₁ (by omega)
    · exact hrest

/-- The last literals: after them the text is complete. -/
theorem putLast_spec (ht : t ≤ input.length) (h : Carried input (input.length - t) op)
    (hs : Sized (input.length - t) op) (hne : input ≠ []) :
    ∃ op', putLast input t op = some op' ∧ Ready input input.length op' ∧
      op'.length ≤ op.length + t + 1 + (t - 18 + 254) / 255 ∧
      (16 ≤ input.length → 5 ≤ op'.length) := by
  have hlen : input.length - t + t = input.length := by omega
  have hslice := length_slice (show input.length - t + t ≤ input.length by omega)
  have hread := bytesAt_eq (show input.length - t + t ≤ input.length by omega)
  have hn : 0 < input.length := List.length_pos_iff.2 hne
  have hlong (hop : op ≠ []) : 5 ≤ op.length := hs.2.resolve_left hop
  have hmatched (hop : op ≠ []) : Matched input (input.length - t) op :=
    h.resolve_left fun h0 => hop h0.1
  have hstart (hop : op = []) : input.length - t = 0 :=
    h.elim And.right fun ⟨c, b, pre, hcons, _⟩ => by simp [hop] at hcons
  by_cases ht0 : t = 0
  · subst ht0
    have hop : op ≠ [] := fun hop => by have := hstart hop; omega
    have hl := hlong hop
    exact ⟨op, by simp [putLast], hlen ▸ (hmatched hop).ready, by omega, fun _ => hl⟩
  by_cases hfirst : op = [] ∧ t ≤ 238
  · obtain ⟨rfl, ht238⟩ := hfirst
    have hzero := hstart rfl
    have htn : t = input.length := by omega
    have hready : Ready input input.length (put (input.take t) [UInt8.ofNat (17 + t)]) := by
      convert ready_first (show 0 < t by omega) ht238 ht using 1
      exact htn.symm
    rw [hzero, List.drop_zero] at hslice hread
    refine ⟨_, ?_, hready, ?_, fun h16 => ?_⟩
    · simp [putLast, ht0, ht238, hzero, hread]
    · rw [length_put, hslice]
      simp
    · rw [length_put, hslice]
      omega
  by_cases ht3 : t ≤ 3
  · have hop : op ≠ [] := fun hop => hfirst ⟨hop, by omega⟩
    have hl := hlong hop
    obtain ⟨op', hor, hsame, hready⟩ := (hmatched hop).ready_few (Nat.pos_of_ne_zero ht0) ht3
      (by omega)
    rw [hlen] at hready
    refine ⟨_, ?_, hready, ?_, fun h16 => ?_⟩
    · simp [putLast, ht0, hfirst, ht3, hor, hread]
    · rw [length_put, hslice]
      omega
    · rw [length_put]
      omega
  · have hready := h.ready_run (show 4 ≤ t by omega) (by omega)
    rw [hlen] at hready
    have hle := length_farHead_le 0 15 (t - 3)
    have hpos := length_farHead_pos 0 15 (t - 3)
    refine ⟨_, ?_, hready, ?_, fun h16 => ?_⟩
    · by_cases h18 : t ≤ 18 <;> simp [putLast, ht0, hfirst, ht3, h18, hread, farHead_literals]
    · rw [length_put, length_put, hslice]
      omega
    · rw [length_put, length_put, hslice]
      omega

/-! ## The library -/

/-- Compression reads inside of its input, and ends with what is read back; the size is
bounded on both sides. -/
theorem lzo1xCompress_spec (input : List UInt8) : ∃ op, lzo1xCompress input = some op.reverse ∧
    Ended input op ∧ op.length ≤ input.length + input.length / 16 + 67 ∧
    (sizeofTraceItem ≤ input.length → 8 ≤ op.length) := by
  rcases eq_or_ne input [] with rfl | hne
  · refine ⟨_, ?_, ended_nil, by decide, fun h => absurd h (by decide)⟩
    simp [lzo1xCompress, chunks, putLast]
  · obtain ⟨op, t, hchunks, ht, hc, hs⟩ := chunks_spec (le_refl input.length) (t := 0)
      (Nat.zero_le _) (Or.inl ⟨rfl, by omega⟩ : Carried _ _ []) ⟨Nat.zero_le _, Or.inl rfl⟩
    obtain ⟨op', hlast, hready, hle, hge⟩ := putLast_spec ht hc hs hne
    refine ⟨_, ?_, hready.ended, ?_, fun h16 => ?_⟩
    · simp only [lzo1xCompress, hchunks, hlast, Option.bind_eq_bind, Option.bind_some,
        Option.pure_def]
    · have hsize := hs.1
      rw [length_put]
      simp only [List.length_cons, List.length_nil]
      omega
    · have hlong := hge h16
      rw [length_put]
      simp only [List.length_cons, List.length_nil]
      omega

/-- Compression never reads outside of its input, and decompression gives the input back,
without reading outside of the output or before the text, whatever follows the output; it
returns `LZO_E_OK` exactly if nothing does.  The size is bounded on both sides. -/
theorem lzo1x_roundTrip (input : List UInt8) : ∃ out, lzo1xCompress input = some out ∧
    (∀ rest, lzo1xDecompress (out ++ rest) =
      some (if rest = [] then lzoEOk else lzoEInputNotConsumed, input)) ∧
    out.length ≤ input.length + input.length / 16 + 67 ∧
    (sizeofTraceItem ≤ input.length → 8 ≤ out.length) := by
  obtain ⟨op, hop, hended, hle, hge⟩ := lzo1xCompress_spec input
  refine ⟨op.reverse, hop, hended, ?_, fun h16 => ?_⟩
  · rwa [List.length_reverse]
  · rw [List.length_reverse]
    exact hge h16

/-- The library the runtime and the analyzer are linked with. -/
def minilzo : Lzo where
  compress bs := (lzo1xCompress bs).getD []
  decompress bs := (lzo1xDecompress bs).bind fun r => if r.1 = lzoEOk then some r.2 else none
  decompress_compress bs := by
    obtain ⟨op, hop, hended, -⟩ := lzo1xCompress_spec bs
    have h := hended []
    rw [List.append_nil] at h
    simp [hop, h]
  le_length_compress bs h := by
    obtain ⟨op, hop, -, -, hge⟩ := lzo1xCompress_spec bs
    simpa [hop] using hge h
  length_compress_le bs := by
    obtain ⟨op, hop, -, hle, -⟩ := lzo1xCompress_spec bs
    simpa [hop] using hle

end Minilzo
end Rtl
end Sword
