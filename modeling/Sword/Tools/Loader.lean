import Sword.Rtl.DoubleBuffer

/-!
# The trace reader: `load_and_convert_file` of `tools/sword-race-analysis.cc`

The reader is given a byte range of a thread's data file and turns the blocks in
it back into trace items, and these into the calls of
`interval_tree_insert_data` the analysis starts from.

* `replay` — the `switch` over a block's items, which keeps the set of mutexes
  held.
* `loadLoop` / `loadAndConvertFile` — the loop over the blocks.  Every block is
  read together with the eight bytes of the next block's size, when `neof` says
  that there is one.  An access outside the two stack buffers is an error of the
  model, like a failed read or a failed decompression.
* `loadAndConvertFile_frames` — on a range that holds blocks as the runtime
  frames them, the reader succeeds, reads the whole range and nothing else, and
  returns the items of the blocks in order.
-/

namespace Sword
namespace Tools

open Rtl Bytes

/-! ## Replaying a block -/

/-- One call `interval_tree_insert_data(interval_tree_node(address, address,
size_type, pc, mutex), ...)`. -/
structure InsertCall where
  address : UInt64
  sizeType : UInt8
  pc : UInt64
  mutex : Finset UInt64
  deriving DecidableEq

/-- The call made for an access under the mutexes held. -/
def insertCall (a : Access) (mutex : Finset UInt64) : InsertCall :=
  ⟨a.address, a.sizeType, UInt64.ofNat a.pc.toNat, mutex⟩

/-- What an item does to the set of mutexes held. -/
def holdAfter (mutex : Finset UInt64) : TraceItem → Finset UInt64
  | .dataAccess _ => mutex
  | .mutexAcquired m => insert m.waitId mutex
  | .mutexReleased m => mutex.erase m.waitId

/-- The loop over `file_buffer`: the calls made for a list of items, starting
with the given set of mutexes. -/
def replay (mutex : Finset UInt64) : List TraceItem → List InsertCall
  | [] => []
  | .dataAccess a :: xs => insertCall a mutex :: replay mutex xs
  | .mutexAcquired m :: xs => replay (holdAfter mutex (.mutexAcquired m)) xs
  | .mutexReleased m :: xs => replay (holdAfter mutex (.mutexReleased m)) xs

/-- The set of mutexes held after a list of items. -/
def heldAfter (mutex : Finset UInt64) (xs : List TraceItem) : Finset UInt64 :=
  xs.foldl holdAfter mutex

@[simp] theorem heldAfter_nil (mutex : Finset UInt64) : heldAfter mutex [] = mutex := rfl

@[simp] theorem heldAfter_cons (mutex : Finset UInt64) (x : TraceItem) (xs : List TraceItem) :
    heldAfter mutex (x :: xs) = heldAfter (holdAfter mutex x) xs := rfl

theorem replay_append (mutex : Finset UInt64) (xs ys : List TraceItem) :
    replay mutex (xs ++ ys) = replay mutex xs ++ replay (heldAfter mutex xs) ys := by
  induction xs generalizing mutex with
  | nil => rfl
  | cons x xs ih => cases x <;> simp [replay, ih, holdAfter]

/-! ## The loop over the blocks -/

/-- The ways the reader can fail: the two exits of the code, and an access
outside `compressed_buffer` or `uncompressed_buffer`. -/
inductive LoadError
  | readError | decompressionFailed | outOfBounds
  deriving DecidableEq, Repr

/-- What the reader has done so far. -/
structure Loaded where
  /-- The items decoded, over all blocks. -/
  items : List TraceItem := []
  /-- The calls made. -/
  calls : List InsertCall := []
  /-- `total_size`, the bytes read. -/
  totalSize : Nat := 0
  deriving DecidableEq

/-- The loop `while(total_size < filesize)`.  `rest` is the file from the current
position on.  When the block just read was the last, the next `block_size` is
taken from the end of its payload; the loop is left before it is used. -/
def loadLoop (lzo : Lzo) (filesize : Nat) (rest : List UInt8) (blockSize neof : Nat)
    (acc : Loaded) : Except LoadError Loaded :=
  if acc.totalSize < filesize then
    if outLen < blockSize then .error .outOfBounds
    else if rest.length < blockSize then .error .readError
    else
      let compressed := rest.take blockSize
      match lzo.decompress (compressed.take (blockSize - 8 * neof)) with
      | none => .error .decompressionFailed
      | some bytes =>
        if Rtl.blockSize < bytes.length then .error .outOfBounds
        else if hlt : blockSize < 8 then .error .outOfBounds
        else
          let fileBuffer :=
            (decodeItems (bytes.length / sizeofTraceItem) bytes).filterMap id
          let acc' : Loaded := ⟨acc.items ++ fileBuffer, acc.calls ++ replay ∅ fileBuffer,
            acc.totalSize + blockSize⟩
          let next := ofLeBytes (compressed.drop (blockSize - 8))
          if acc'.totalSize + next + 8 < filesize then
            loadLoop lzo filesize (rest.drop blockSize) (next + 8) 1 acc'
          else loadLoop lzo filesize (rest.drop blockSize) next 0 acc'
  else .ok acc
termination_by filesize - acc.totalSize

/-- `load_and_convert_file` on the range `[fob, foe)` of a data file. -/
def loadAndConvertFile (lzo : Lzo) (datafile : List UInt8) (fob foe : Nat) :
    Except LoadError Loaded :=
  let filesize := foe - fob
  if 0 < filesize then
    let rest := datafile.drop fob
    if rest.length < 8 then .error .readError
    else
      let blockSize := ofLeBytes (rest.take 8)
      if blockSize + 8 < filesize then
        loadLoop lzo filesize (rest.drop 8) (blockSize + 8) 1 { totalSize := 8 }
      else loadLoop lzo filesize (rest.drop 8) blockSize 0 { totalSize := 8 }
  else .ok {}

/-! ## Framed blocks -/

variable {lzo : Lzo}

/-- The compressed form of a block. -/
def payload (lzo : Lzo) (b : List TraceItem) : List UInt8 := lzo.compress (encodeItems b)

theorem frame_eq (b : List TraceItem) :
    frame lzo b = leBytes 8 (payload lzo b).length ++ payload lzo b := by
  rw [frame, dumpToFile, List.take_length]
  rfl

theorem length_frame (b : List TraceItem) :
    (frame lzo b).length = 8 + (payload lzo b).length := by
  rw [frame_eq, List.length_append, length_leBytes]

/-- A block the runtime can write. -/
structure BlockOk (b : List TraceItem) : Prop where
  ne_nil : b ≠ []
  length_le : b.length ≤ numOfAccesses

theorem BlockOk.le_length_payload {b : List TraceItem} (h : BlockOk b) (lzo : Lzo) :
    8 ≤ (payload lzo b).length := by
  refine lzo.le_length_compress _ ?_
  rw [length_encodeItems]
  exact Nat.le_mul_of_pos_left _ (List.length_pos_iff.2 h.ne_nil)

/-- The payload and the size of the next block fit into `compressed_buffer`. -/
theorem BlockOk.length_payload_le {b : List TraceItem} (h : BlockOk b) (lzo : Lzo) :
    (payload lzo b).length + 8 ≤ outLen := by
  have hc := lzo.length_compress_le (encodeItems b)
  have hb : b.length * sizeofTraceItem ≤ Rtl.blockSize := Nat.mul_le_mul_right _ h.length_le
  rw [length_encodeItems] at hc
  have hdiv := Nat.div_le_div_right (c := 16) hb
  unfold payload outLen
  omega

theorem outLen_lt : outLen < 256 ^ 8 := by decide

/-- The size of a block is read back from its header. -/
theorem BlockOk.ofLeBytes_header {b : List TraceItem} (h : BlockOk b) :
    ofLeBytes (leBytes 8 (payload lzo b).length) = (payload lzo b).length := by
  refine ofLeBytes_leBytes ?_
  have h1 := h.length_payload_le lzo
  have h2 := outLen_lt
  omega

/-- Decompressing a payload and reading the result as an array of items. -/
theorem decode_payload (b : List TraceItem) :
    (decodeItems ((encodeItems b).length / sizeofTraceItem) (encodeItems b)).filterMap id = b := by
  have hn : (encodeItems b).length / sizeofTraceItem = b.length := by
    rw [length_encodeItems]
    exact Nat.mul_div_cancel _ (by decide)
  rw [hn, decodeItems_encodeItems]
  simp [List.filterMap_map]

theorem le_length_flatMap_frame (lzo : Lzo) {b : List TraceItem} (bs : List (List TraceItem))
    (hb : BlockOk b) : 16 ≤ ((b :: bs).flatMap (frame lzo)).length := by
  have h8 := hb.le_length_payload lzo
  rw [List.flatMap_cons, List.length_append, length_frame]
  omega

/-- One turn of the loop, for a block whose payload is in front: `rest` is the
payload followed by at least the bytes read along with it. -/
theorem loadLoop_block (lzo : Lzo) {b : List TraceItem} (hb : BlockOk b) {filesize neof : Nat}
    {acc : Loaded} {next : List UInt8} (rest : List UInt8) (hn : next.length = 8 * neof)
    (hneof : neof ≤ 1)
    (hlt : acc.totalSize < filesize) :
    loadLoop lzo filesize (payload lzo b ++ (next ++ rest))
        ((payload lzo b).length + 8 * neof) neof acc =
      (let acc' : Loaded := ⟨acc.items ++ b, acc.calls ++ replay ∅ b,
        acc.totalSize + ((payload lzo b).length + 8 * neof)⟩
      let size := ofLeBytes ((payload lzo b ++ next).drop ((payload lzo b).length + 8 * neof - 8))
      if acc'.totalSize + size + 8 < filesize then loadLoop lzo filesize rest (size + 8) 1 acc'
      else loadLoop lzo filesize rest size 0 acc') := by
  have h8 := hb.le_length_payload lzo
  have hout := hb.length_payload_le lzo
  have hbytes : ¬ Rtl.blockSize < (encodeItems b).length := by
    rw [length_encodeItems]
    exact Nat.not_lt.2 (Nat.mul_le_mul_right _ hb.length_le)
  have happ : payload lzo b ++ (next ++ rest) = (payload lzo b ++ next) ++ rest := by simp
  have hlen : (payload lzo b ++ next).length = (payload lzo b).length + 8 * neof := by simp [hn]
  rw [loadLoop, if_pos hlt, if_neg (by omega), happ,
    if_neg (by rw [List.length_append]; omega)]
  rw [← hlen, List.take_left, List.drop_left, hlen]
  simp only [Nat.add_sub_cancel, List.take_left]
  rw [payload, lzo.decompress_compress, ← payload]
  dsimp only
  rw [if_neg hbytes, dif_neg (by omega), decode_payload]

/-- The loop over the blocks behind the first header: it decodes every block, and
leaves the file where the range ends. -/
theorem loadLoop_frames (lzo : Lzo) (bs : List (List TraceItem)) :
    ∀ {b : List TraceItem} {filesize : Nat} (acc : Loaded) (tail : List UInt8),
      (∀ c ∈ b :: bs, BlockOk c) →
      acc.totalSize + (payload lzo b).length + (bs.flatMap (frame lzo)).length = filesize →
      loadLoop lzo filesize (payload lzo b ++ (bs.flatMap (frame lzo) ++ tail))
          ((payload lzo b).length + 8 * (if bs = [] then 0 else 1)) (if bs = [] then 0 else 1) acc =
        .ok ⟨acc.items ++ (b :: bs).flatten, acc.calls ++ (b :: bs).flatMap (replay ∅),
          filesize⟩ := by
  induction bs with
  | nil =>
    intro b filesize acc tail hok hsize
    have hb : BlockOk b := hok b List.mem_cons_self
    have h8 := hb.le_length_payload lzo
    simp only [List.flatMap_nil, List.length_nil, Nat.add_zero] at hsize
    have hlt : acc.totalSize < filesize := by omega
    have hturn := loadLoop_block lzo hb tail (List.length_nil.trans (Nat.mul_zero 8).symm)
      (Nat.zero_le 1) hlt
    simp only [Nat.mul_zero, Nat.add_zero, List.nil_append, List.append_nil] at hturn
    -- the size read from the end of the last payload is never used
    rw [if_pos rfl, Nat.mul_zero, Nat.add_zero, List.flatMap_nil, List.nil_append, hturn,
      if_neg (by omega), loadLoop, if_neg (by dsimp only; omega)]
    simp [hsize]
  | cons c cs ih =>
    intro b filesize acc tail hok hsize
    have hb : BlockOk b := hok b List.mem_cons_self
    have hc : BlockOk c := hok c (by simp)
    have h8 := hb.le_length_payload lzo
    have hlen : (leBytes 8 (payload lzo c).length).length = 8 * 1 := length_leBytes 8 _
    have hrest : (c :: cs).flatMap (frame lzo) ++ tail =
        leBytes 8 (payload lzo c).length ++
          (payload lzo c ++ (cs.flatMap (frame lzo) ++ tail)) := by
      rw [List.flatMap_cons, frame_eq, List.append_assoc, List.append_assoc]
    have hdrop : (payload lzo b ++ leBytes 8 (payload lzo c).length).drop
        ((payload lzo b).length + 8 * 1 - 8) = leBytes 8 (payload lzo c).length := by
      rw [show (payload lzo b).length + 8 * 1 - 8 = (payload lzo b).length by omega,
        List.drop_left]
    rw [List.flatMap_cons, List.length_append, length_frame] at hsize
    rw [if_neg (List.cons_ne_nil c cs), hrest, loadLoop_block lzo hb _ hlen le_rfl (by omega)]
    dsimp only
    rw [hdrop, hc.ofLeBytes_header]
    have hok' : ∀ d ∈ c :: cs, BlockOk d := fun d hd => hok d (List.mem_cons_of_mem _ hd)
    have hturn : acc.totalSize + ((payload lzo b).length + 8 * 1) + (payload lzo c).length +
        (cs.flatMap (frame lzo)).length = filesize := by omega
    have hih := ih ⟨acc.items ++ b, acc.calls ++ replay ∅ b,
      acc.totalSize + ((payload lzo b).length + 8 * 1)⟩ tail hok' hturn
    by_cases hcs : cs = []
    · rw [if_pos hcs] at hih
      rw [if_neg (by subst hcs; simp at hsize; omega)]
      simpa using hih
    · obtain ⟨d, ds, rfl⟩ := List.exists_cons_of_ne_nil hcs
      have h16 := le_length_flatMap_frame lzo ds (hok d (by simp))
      rw [if_neg hcs] at hih
      rw [if_pos (by omega)]
      simpa using hih

/-- **The reader on framed blocks.**  On a range that holds blocks of the runtime
the reader decodes exactly these, in order, and reads the whole range. -/
theorem loadAndConvertFile_frames {blocks : List (List TraceItem)} (hok : ∀ b ∈ blocks, BlockOk b)
    (pre tail : List UInt8) :
    loadAndConvertFile lzo (pre ++ (blocks.flatMap (frame lzo) ++ tail)) pre.length
        (pre.length + (blocks.flatMap (frame lzo)).length) =
      .ok ⟨blocks.flatten, blocks.flatMap (replay ∅), (blocks.flatMap (frame lzo)).length⟩ := by
  unfold loadAndConvertFile
  dsimp only
  rw [Nat.add_sub_cancel_left, List.drop_left]
  cases blocks with
  | nil => rfl
  | cons b bs =>
    have hb : BlockOk b := hok b List.mem_cons_self
    have h8 := hb.le_length_payload lzo
    have h16 := le_length_flatMap_frame lzo bs hb
    have hsplit : (b :: bs).flatMap (frame lzo) ++ tail =
        leBytes 8 (payload lzo b).length ++
          (payload lzo b ++ (bs.flatMap (frame lzo) ++ tail)) := by
      rw [List.flatMap_cons, frame_eq, List.append_assoc, List.append_assoc]
    have hsize : ((b :: bs).flatMap (frame lzo)).length =
        8 + (payload lzo b).length + (bs.flatMap (frame lzo)).length := by
      rw [List.flatMap_cons, List.length_append, length_frame]
    have htake : (leBytes 8 (payload lzo b).length ++
        (payload lzo b ++ (bs.flatMap (frame lzo) ++ tail))).take 8 =
          leBytes 8 (payload lzo b).length := List.take_left' (length_leBytes 8 _)
    have hdrop : (leBytes 8 (payload lzo b).length ++
        (payload lzo b ++ (bs.flatMap (frame lzo) ++ tail))).drop 8 =
          payload lzo b ++ (bs.flatMap (frame lzo) ++ tail) := List.drop_left' (length_leBytes 8 _)
    have hloop := loadLoop_frames lzo bs { totalSize := 8 } tail hok hsize.symm
    rw [if_pos (by omega), hsplit, if_neg (by simp), htake, hdrop, hb.ofLeBytes_header]
    cases bs with
    | nil =>
      rw [if_neg (by simp at hsize ⊢; omega)]
      simpa using hloop
    | cons c cs =>
      have h16' := le_length_flatMap_frame lzo cs (hok c (by simp))
      rw [if_pos (by omega)]
      simpa using hloop

end Tools
end Sword
