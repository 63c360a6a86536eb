import Sword.Lib.Bytes

/-!
# The trace items: `rtl/sword_common.h`

What the runtime records about a thread is a sequence of **trace items**: memory
accesses, mutex acquisitions and mutex releases.  This file has their data
types, the packed 16-byte layout they have in memory and therefore on disk, the
hash the run-time filter is keyed by, and the constants that size the buffers.

* `Access`, `MutexRegion`, `TraceItem` — the records, under the source's names.
* `encodeItem` / `decodeItem` — the packed layout of `struct TraceItem` and the
  reader's `switch` over it, with the round trip `decodeItem_encodeItem`.
* `decodeItems` — a buffer read as an array of items; `decodeItems_encodeItems`
  is the round trip for whole buffers.
* `hashValue` — `hash_value(TraceItem)`, over an arbitrary `boost::hash_combine`.
* `numOfAccesses`, `blockSize`, `outLen` — `NUM_OF_ACCESSES`, `BLOCK_SIZE` and
  `OUT_LEN`.
-/

namespace Sword
namespace Rtl

open Bytes

/-! ## The records -/

/-- `enum AccessSize`: the binary logarithm of the number of bytes accessed. -/
inductive AccessSize
  | size1 | size2 | size4 | size8 | size16
  deriving DecidableEq, Repr

/-- The value of an `AccessSize` enumerator. -/
def AccessSize.code : AccessSize → UInt8
  | .size1 => 0
  | .size2 => 1
  | .size4 => 2
  | .size8 => 3
  | .size16 => 4

/-- `enum AccessType`. -/
inductive AccessType
  | unsafeRead | unsafeWrite | atomicRead | atomicWrite
  deriving DecidableEq, Repr

/-- The value of an `AccessType` enumerator. -/
def AccessType.code : AccessType → UInt8
  | .unsafeRead => 0
  | .unsafeWrite => 1
  | .atomicRead => 2
  | .atomicWrite => 3

/-- `struct Access`: the size and the type share one byte, the program counter
is kept in 48 bits (`Int48`). -/
structure Access where
  /-- The size in the high four bits, the type in the low four. -/
  sizeType : UInt8
  /-- The first byte accessed. -/
  address : UInt64
  /-- The return address of the instrumentation call. -/
  pc : BitVec 48
  deriving DecidableEq, Repr

/-- The constructor `Access(as, at, a, p)`; the 48-bit field keeps the low bits
of `p`. -/
def Access.make (as : AccessSize) (at' : AccessType) (a p : UInt64) : Access :=
  ⟨(as.code <<< 4) ||| at'.code, a, p.toBitVec.setWidth 48⟩

/-- `struct MutexRegion`. -/
structure MutexRegion where
  /-- The kind of mutex, an `ompt_mutex_kind_t`. -/
  kind : UInt32
  /-- The identity of the mutex, an `ompt_wait_id_t`. -/
  waitId : UInt64
  deriving DecidableEq, Repr

/-- `struct TraceItem`, for the three kinds of item the runtime ever creates. -/
inductive TraceItem
  | dataAccess (access : Access)
  | mutexAcquired (mutexRegion : MutexRegion)
  | mutexReleased (mutexRegion : MutexRegion)
  deriving DecidableEq, Repr

/-- The item `TraceItem()` a fresh buffer is filled with. -/
instance : Inhabited TraceItem := ⟨.dataAccess ⟨0, 0, 0⟩⟩

/-- `getType()`: the `CallbackType` of an item. -/
def TraceItem.getType : TraceItem → UInt8
  | .dataAccess _ => 0
  | .mutexAcquired _ => 6
  | .mutexReleased _ => 7

/-! ## The constants -/

/-- `NUM_OF_ACCESSES`: the capacity of a buffer, in items. -/
def numOfAccesses : Nat := 25000

/-- `sizeof(TraceItem)`: the type byte and the fifteen bytes of the largest
member of the union. -/
def sizeofTraceItem : Nat := 16

/-- `BLOCK_SIZE`. -/
def blockSize : Nat := numOfAccesses * sizeofTraceItem

/-- `OUT_LEN`: room for one compressed block and the eight bytes of its size. -/
def outLen : Nat := blockSize + blockSize / 16 + 64 + 3 + 8

theorem numOfAccesses_pos : 0 < numOfAccesses := by decide

/-! ## The packed layout -/

/-- The fifteen bytes of the union.  `Data()` clears them as an `Access` first,
so the last three bytes of a `MutexRegion` are zero. -/
def encodeData : TraceItem → List UInt8
  | .dataAccess a => a.sizeType :: (leBytes 8 a.address.toNat ++ leBytes 6 a.pc.toNat)
  | .mutexAcquired m => leBytes 4 m.kind.toNat ++ (leBytes 8 m.waitId.toNat ++ [0, 0, 0])
  | .mutexReleased m => leBytes 4 m.kind.toNat ++ (leBytes 8 m.waitId.toNat ++ [0, 0, 0])

/-- The sixteen bytes of an item. -/
def encodeItem (x : TraceItem) : List UInt8 := x.getType :: encodeData x

/-- The bytes of an array of items. -/
def encodeItems (xs : List TraceItem) : List UInt8 := xs.flatMap encodeItem

/-- The union read as an `Access`. -/
def readAccess (data : List UInt8) : Access :=
  ⟨data.headD 0, UInt64.ofNat (ofLeBytes ((data.drop 1).take 8)),
    BitVec.ofNat 48 (ofLeBytes ((data.drop 9).take 6))⟩

/-- The union read as a `MutexRegion`. -/
def readMutexRegion (data : List UInt8) : MutexRegion :=
  ⟨UInt32.ofNat (ofLeBytes (data.take 4)), UInt64.ofNat (ofLeBytes ((data.drop 4).take 8))⟩

/-- One item as the reader's `switch (it->getType())` sees it; every other type
falls into the `default` branch, which ignores the item. -/
def decodeItem : List UInt8 → Option TraceItem
  | [] => none
  | t :: data =>
    if t = 0 then some (.dataAccess (readAccess data))
    else if t = 6 then some (.mutexAcquired (readMutexRegion data))
    else if t = 7 then some (.mutexReleased (readMutexRegion data))
    else none

/-- The first `n` items of a byte buffer, read as an array. -/
def decodeItems : Nat → List UInt8 → List (Option TraceItem)
  | 0, _ => []
  | n + 1, bs => decodeItem (bs.take sizeofTraceItem) :: decodeItems n (bs.drop sizeofTraceItem)

@[simp] theorem length_encodeItem (x : TraceItem) : (encodeItem x).length = sizeofTraceItem := by
  cases x <;> simp [encodeItem, encodeData, sizeofTraceItem]

@[simp] theorem length_encodeItems (xs : List TraceItem) :
    (encodeItems xs).length = xs.length * sizeofTraceItem := by
  simp [encodeItems, List.length_flatMap]

theorem readMutexRegion_append (m : MutexRegion) (pad : List UInt8) :
    readMutexRegion (leBytes 4 m.kind.toNat ++ (leBytes 8 m.waitId.toNat ++ pad)) = m := by
  have hk : m.kind.toNat < 256 ^ 4 := m.kind.toNat_lt
  have hw : m.waitId.toNat < 256 ^ 8 := m.waitId.toNat_lt
  simp [readMutexRegion, ofLeBytes_leBytes hk, ofLeBytes_leBytes hw]

theorem readAccess_append (a : Access) :
    readAccess (a.sizeType :: (leBytes 8 a.address.toNat ++ leBytes 6 a.pc.toNat)) = a := by
  have ha : a.address.toNat < 256 ^ 8 := a.address.toNat_lt
  have hp : a.pc.toNat < 256 ^ 6 := a.pc.isLt
  have htake : (leBytes 6 a.pc.toNat).take 6 = leBytes 6 a.pc.toNat :=
    List.take_of_length_le (by simp)
  simp [readAccess, htake, ofLeBytes_leBytes ha, ofLeBytes_leBytes hp]

/-- The reader recovers the item the runtime stored. -/
theorem decodeItem_encodeItem (x : TraceItem) : decodeItem (encodeItem x) = some x := by
  cases x with
  | dataAccess a =>
    rw [encodeItem, encodeData, decodeItem, readAccess_append]
    rfl
  | mutexAcquired m =>
    rw [encodeItem, encodeData, decodeItem, readMutexRegion_append]
    rfl
  | mutexReleased m =>
    rw [encodeItem, encodeData, decodeItem, readMutexRegion_append]
    rfl

/-- A whole buffer is read back item by item. -/
theorem decodeItems_encodeItems (xs : List TraceItem) :
    decodeItems xs.length (encodeItems xs) = xs.map some := by
  induction xs with
  | nil => rfl
  | cons x xs ih =>
    have hx : (encodeItem x).length = sizeofTraceItem := length_encodeItem x
    have hsplit : encodeItems (x :: xs) = encodeItem x ++ encodeItems xs := rfl
    rw [List.length_cons, decodeItems, hsplit, ← hx, List.take_left, List.drop_left, ih,
      decodeItem_encodeItem]
    rfl

/-! ## The hash of an item -/

/-- `boost::hash_combine` for 64-bit sizes. -/
def boostHashCombine (seed k : UInt64) : UInt64 :=
  let m : UInt64 := 0xc6a4a7935bd1e995
  let k := k * m
  let k := k ^^^ (k >>> 47)
  let k := k * m
  (seed ^^^ k) * m + 0xe6546b64

section Hash

variable (hashCombine : UInt64 → UInt64 → UInt64)

/-- `hash_value(Access)`. -/
def hashValueAccess (a : Access) : UInt64 :=
  hashCombine (hashCombine (hashCombine 0 a.address) a.sizeType.toUInt64)
    (UInt64.ofNat a.pc.toNat)

/-- `hash_value(MutexRegion)`. -/
def hashValueMutexRegion (m : MutexRegion) : UInt64 :=
  hashCombine (hashCombine 0 m.kind.toUInt64) m.waitId

/-- `hash_value(TraceItem)`, over the function `boost::hash_combine` computes:
`hash_combine(val, x)` sets `val` to `hashCombine val (hash_value x)`. -/
def hashValue (x : TraceItem) : UInt64 :=
  let val := hashCombine 0 x.getType.toUInt64
  match x with
  | .dataAccess a => hashCombine val (hashValueAccess hashCombine a)
  | .mutexAcquired m => hashCombine val (hashValueMutexRegion hashCombine m)
  | .mutexReleased m => hashCombine val (hashValueMutexRegion hashCombine m)

end Hash

end Rtl
end Sword
