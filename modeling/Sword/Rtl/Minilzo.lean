import Sword.Lib.Bytes
import Sword.Lib.Lz77
import Sword.Lib.Machine

/-!
# The compression library: `rtl/lzo/minilzo.c`

The runtime compresses every buffer with `lzo1x_1_compress`, and the analyzer
reads it with `lzo1x_decompress`.  This file has the two functions, as they are
configured for a 64-bit little-endian machine with unaligned accesses.  Pointers
into a buffer are positions, and a read outside of the input is `none`; what has
been written is a list with the latest byte first, so that `op[-2]` is its second
entry.

* `doCompress`, `lzo1xCompress` — `lzo1x_1_compress_core` on one chunk, and
  `lzo1x_1_compress`, which cuts the input into chunks of at most 49152 bytes.
  A chunk starts with an empty dictionary, but the literals it has not written
  when it ends go into the next one.
* `Label`, `Reader`, `step` — `lzo1x_decompress` as the machine that its labels and
  jumps make; `lzo1xDecompress` runs it.
-/

namespace Sword
namespace Rtl
namespace Minilzo

open Bytes Lz77

/-! ## Constants -/

abbrev dBits : Nat := 14
abbrev m2MaxLen : Nat := 8
abbrev m2MaxOffset : Nat := 0x0800
abbrev m3MaxLen : Nat := 33
abbrev m3MaxOffset : Nat := 0x4000
abbrev m4MaxLen : Nat := 9
abbrev m3Marker : Nat := 32
abbrev m4Marker : Nat := 16
abbrev lzoEOk : Int := 0
abbrev lzoEInputNotConsumed : Int := -8

/-! ## Reading and writing memory -/

/-- The `n` bytes at a position. -/
def bytesAt (n : Nat) (input : List UInt8) (pos : Nat) : Option (List UInt8) :=
  if pos + n ≤ input.length then some ((input.drop pos).take n) else none

/-- `UA_GET_LE32` and `UA_GET_NE64`: the word of `w` bytes at a position. -/
def uaGet (w : Nat) (input : List UInt8) (pos : Nat) : Option Nat :=
  (bytesAt w input pos).map ofLeBytes

/-- `*op++ = ...`, for a few bytes. -/
def put (bs op : List UInt8) : List UInt8 := bs.reverse ++ op

/-- `op[-2] = LZO_BYTE(op[-2] | t)`. -/
def orBack (t : Nat) : List UInt8 → Option (List UInt8)
  | c :: b :: op => some (c :: (b ||| UInt8.ofNat t) :: op)
  | _ => none

/-- `while (tt > 255) { tt -= 255; *op++ = 0; } *op++ = LZO_BYTE(tt)`. -/
def zerosThen (tt : Nat) : List UInt8 :=
  if 255 < tt then 0 :: zerosThen (tt - 255) else [UInt8.ofNat tt]
termination_by tt

/-! ## `lzo1x_1_compress_core` -/

/-- `DINDEX`. -/
def dindex (dv : Nat) : Fin (2 ^ dBits) :=
  ⟨(0x1824429d * dv % 2 ^ 32) >>> (32 - dBits) &&& (2 ^ dBits - 1),
    lt_of_le_of_lt Nat.and_le_right (by decide)⟩

/-- The locals of the core: `ip`, `ii`, `ti`, the dictionary, and what is written. -/
structure Core where
  ip : Nat
  ii : Nat
  ti : Nat
  dict : Fin (2 ^ dBits) → UInt16
  op : List UInt8

/-- The `t` literals at `ii`. -/
def putLiterals (input : List UInt8) (ii t : Nat) (op : List UInt8) : Option (List UInt8) :=
  if t = 0 then some op
  else if t ≤ 3 then do
    let op ← orBack t op
    -- `UA_COPY4`, of which only `t` bytes are kept
    return put ((← bytesAt 4 input ii).take t) op
  else if t ≤ 16 then do
    return put ((← bytesAt 16 input ii).take t) (put [UInt8.ofNat (t - 3)] op)
  else do
    let op := put (if t ≤ 18 then [UInt8.ofNat (t - 3)] else 0 :: zerosThen (t - 18)) op
    return put (← bytesAt t input ii) op

/-- `v = UA_GET_NE64(ip + m_len) ^ UA_GET_NE64(m_pos + m_len)`. -/
def difference (input : List UInt8) (ip mPos mLen : Nat) : Option Nat := do
  return (← uaGet 8 input (ip + mLen)) ^^^ (← uaGet 8 input (mPos + mLen))

/-- `lzo_bitops_cttz64(v) / CHAR_BIT`: the low bytes of `v` that are zero. -/
def equalBytes (v : Nat) : Nat := padicValNat 2 v / 8

/-- The loop that makes a match longer, eight bytes at a time. -/
def lengthen (input : List UInt8) (ip mPos ipEnd mLen : Nat) : Option Nat := do
  let v ← difference input ip mPos (mLen + 8)
  if ipEnd ≤ ip + (mLen + 8) then return mLen + 8
  else if v = 0 then lengthen input ip mPos ipEnd (mLen + 8)
  else return mLen + 8 + equalBytes v
termination_by ipEnd - (ip + mLen)

/-- `m_len`, from `m_len = 4` to `m_len_done`. -/
def matchLength (input : List UInt8) (ip mPos ipEnd : Nat) : Option Nat := do
  let v ← difference input ip mPos 4
  if v = 0 then lengthen input ip mPos ipEnd 4 else return 4 + equalBytes v

/-- The bytes that stand for a match. -/
def matchBytes (mLen mOff : Nat) : List UInt8 :=
  if mLen ≤ m2MaxLen ∧ mOff ≤ m2MaxOffset then
    let mOff := mOff - 1
    [UInt8.ofNat ((mLen - 1) <<< 5 ||| (mOff &&& 7) <<< 2), UInt8.ofNat (mOff >>> 3)]
  else if mOff ≤ m3MaxOffset then
    let mOff := mOff - 1
    (if mLen ≤ m3MaxLen then [UInt8.ofNat (m3Marker ||| (mLen - 2))]
      else UInt8.ofNat m3Marker :: zerosThen (mLen - m3MaxLen)) ++
      [UInt8.ofNat (mOff <<< 2), UInt8.ofNat (mOff >>> 6)]
  else
    let mOff := mOff - 0x4000
    (if mLen ≤ m4MaxLen then
        [UInt8.ofNat (m4Marker ||| (mOff >>> 11 &&& 8) ||| (mLen - 2))]
      else UInt8.ofNat (m4Marker ||| (mOff >>> 11 &&& 8)) :: zerosThen (mLen - m4MaxLen)) ++
      [UInt8.ofNat (mOff <<< 2), UInt8.ofNat (mOff >>> 6)]

/-- `ip += 1 + ((ip - ii) >> 5)`, at the label `literal`. -/
def Core.literal (s : Core) : Core := { s with ip := s.ip + (1 + (s.ip - s.ii) >>> 5) }

/-- One turn from the label `next`, in the chunk from `base`. -/
def Core.turn (input : List UInt8) (base ipEnd : Nat) (s : Core) : Option Core := do
  let dv ← uaGet 4 input s.ip
  let mPos := base + (s.dict (dindex dv)).toNat
  let s := { s with dict := Function.update s.dict (dindex dv) (UInt16.ofNat (s.ip - base)) }
  if dv ≠ (← uaGet 4 input mPos) then return s.literal
  let ii := s.ii - s.ti
  let op ← putLiterals input ii (s.ip - ii) s.op
  let mLen ← matchLength input s.ip mPos ipEnd
  return { s with
    ip := s.ip + mLen, ii := s.ip + mLen, ti := 0, op := put (matchBytes mLen (s.ip - mPos)) op }

/-- The turns until `ip >= ip_end`. -/
def Core.loop (input : List UInt8) (base ipEnd : Nat) : Nat → Core → Option Core
  | 0, _ => none
  | fuel + 1, s =>
    if ipEnd ≤ s.ip then some s
    else s.turn input base ipEnd >>= Core.loop input base ipEnd fuel

/-- `do_compress`, on the chunk of `inLen` bytes at `base`: what is written, and the
number of bytes at the end of the chunk that are still to be written as literals. -/
def doCompress (input : List UInt8) (base inLen : Nat) (op : List UInt8) (ti : Nat) :
    Option (List UInt8 × Nat) := do
  let s : Core := ⟨base + (if ti < 4 then 4 - ti else 0), base, ti, fun _ => 0, op⟩
  let s ← s.literal.loop input base (base + inLen - 20) (inLen + 1)
  return (s.op, base + inLen - (s.ii - s.ti))

/-! ## `lzo1x_1_compress` -/

/-- The loop over the chunks: what is written, and how many bytes are left. -/
def chunks (input : List UInt8) (op : List UInt8) (l t : Nat) : Option (List UInt8 × Nat) :=
  if 20 < l then
    let ll := min l 49152
    if (t + ll) >>> 5 = 0 then some (op, t + l)
    else do
      let (op, t) ← doCompress input (input.length - l) ll op t
      chunks input op (l - ll) t
  else some (op, t + l)
termination_by l

/-- The last `t` bytes, as literals. -/
def putLast (input : List UInt8) (t : Nat) (op : List UInt8) : Option (List UInt8) := do
  if t = 0 then return op
  let op ←
    if op = [] ∧ t ≤ 238 then some (put [UInt8.ofNat (17 + t)] op)
    else if t ≤ 3 then orBack t op
    else if t ≤ 18 then some (put [UInt8.ofNat (t - 3)] op)
    else some (put (0 :: zerosThen (t - 18)) op)
  return put (← bytesAt t input (input.length - t)) op

/-- `lzo1x_1_compress`. -/
def lzo1xCompress (input : List UInt8) : Option (List UInt8) := do
  let (op, t) ← chunks input [] input.length 0
  let op ← putLast input t op
  return (put [UInt8.ofNat (m4Marker ||| 1), 0, 0] op).reverse

/-! ## `lzo1x_decompress` -/

/-- The places the decompressor jumps between, with the value of `t` where it is used. -/
inductive Label
  | entry
  | literalRun
  | firstLiteralRun
  | matched (t : Nat)
  | matchDone
  | matchNext (t : Nat)
  | eofFound
  deriving DecidableEq, Repr

/-- The bytes up to `ip`, the latest first, the bytes from `ip` on, and the bytes
written, the latest first. -/
structure Reader where
  behind : List UInt8
  ahead : List UInt8
  plain : List UInt8
  deriving DecidableEq, Repr

namespace Reader

/-- `*ip++`. -/
def next : Reader → Option (UInt8 × Reader)
  | ⟨behind, b :: ahead, plain⟩ => some (b, ⟨b :: behind, ahead, plain⟩)
  | ⟨_, [], _⟩ => none

/-- `n` times `*op++ = *ip++`. -/
def literals (n : Nat) (s : Reader) : Option Reader :=
  if n ≤ s.ahead.length then
    some ⟨(s.ahead.take n).reverse ++ s.behind, s.ahead.drop n,
      (s.ahead.take n).reverse ++ s.plain⟩
  else none

/-- `while (*ip == 0) { t += 255; ip++; } t += base + *ip++`. -/
def zeros (base t : Nat) (behind ahead plain : List UInt8) : Option (Nat × Reader) :=
  match ahead with
  | [] => none
  | b :: ahead =>
    if b = 0 then zeros base (t + 255) (b :: behind) ahead plain
    else some (t + (base + b.toNat), ⟨b :: behind, ahead, plain⟩)

/-- A length that is `t`, unless `t` is zero and it follows. -/
def length (base t : Nat) (s : Reader) : Option (Nat × Reader) :=
  if t = 0 then zeros base t s.behind s.ahead s.plain else some (t, s)

/-- `t` times `*op++ = *m_pos++`, `op - m_pos` being `mOff`. -/
def copy (mOff t : Nat) (s : Reader) : Option Reader :=
  (copyMatch mOff t s.plain).map fun plain => { s with plain }

/-- The copy of a match: in chunks, if these do not overlap. -/
def copyFar (mOff t : Nat) (s : Reader) : Option Reader :=
  if 8 ≤ mOff then (inChunks (copyBlock mOff) t s.plain).map fun plain => { s with plain }
  else s.copy mOff t

end Reader

/-- From one label to the next. -/
def step : Label × Reader → Option (Label × Reader)
  | (.entry, s) => do
    let (b, s') ← s.next
    if 17 < b.toNat then
      let t := b.toNat - 17
      if t < 4 then return (.matchNext t, s')
      return (.firstLiteralRun, ← s'.literals t)
    return (.literalRun, s)
  | (.literalRun, s) => do
    let (b, s) ← s.next
    if 16 ≤ b.toNat then return (.matched b.toNat, s)
    let (t, s) ← s.length 15 b.toNat
    return (.firstLiteralRun, ← inChunks Reader.literals (t + 3) s)
  | (.firstLiteralRun, s) => do
    let (t, s) ← s.next
    if 16 ≤ t.toNat then return (.matched t.toNat, s)
    let (b, s) ← s.next
    return (.matchDone, ← s.copy (1 + m2MaxOffset + t.toNat >>> 2 + b.toNat <<< 2) 3)
  | (.matched t, s) => do
    if 64 ≤ t then
      let (b, s) ← s.next
      -- `goto copy_match`
      return (.matchDone, ← s.copy (1 + (t >>> 2 &&& 7) + b.toNat <<< 3) (t >>> 5 - 1 + 2))
    else if 32 ≤ t then
      let (t, s) ← s.length 31 (t &&& 31)
      let (lo, s) ← s.next
      let (hi, s) ← s.next
      return (.matchDone, ← s.copyFar (1 + ofLeBytes [lo, hi] >>> 2) (t + 2))
    else if 16 ≤ t then
      let far := (t &&& 8) <<< 11
      let (t, s) ← s.length 7 (t &&& 7)
      let (lo, s) ← s.next
      let (hi, s) ← s.next
      let mOff := far + ofLeBytes [lo, hi] >>> 2
      if mOff = 0 then return (.eofFound, s)
      return (.matchDone, ← s.copyFar (mOff + 0x4000) (t + 2))
    else
      let (b, s) ← s.next
      return (.matchDone, ← s.copy (1 + t >>> 2 + b.toNat <<< 2) 2)
  | (.matchDone, s) => do
    let b ← s.behind[1]?
    let t := b.toNat &&& 3
    if t = 0 then return (.literalRun, s) else return (.matchNext t, s)
  | (.matchNext t, s) => do
    let (b, s) ← (← s.literals t).next
    return (.matched b.toNat, s)
  | (.eofFound, _) => none

/-- `lzo1x_decompress`: the return code, and what is written. -/
def lzo1xDecompress (input : List UInt8) : Option (Int × List UInt8) := do
  let (_, s) ← Machine.run step (fun s => s.1 = .eofFound) (2 * input.length + 2)
    (.entry, ⟨[], input, []⟩)
  return (if s.ahead = [] then lzoEOk else lzoEInputNotConsumed, s.plain.reverse)

end Minilzo
end Rtl
end Sword
