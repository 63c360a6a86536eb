import Sword.Lib.Run
import Sword.Rtl.Common

/-!
# The runtime on one thread: `rtl/sword_rtl.cc`

Every thread of the instrumented program owns two buffers of trace items, a
filter, a data file and a metafile, all in thread-local variables.  The
instrumentation calls and the OMPT callbacks change nothing but these, so the
runtime is a state machine per thread: `Tls` is the state, `callback` is one
call, `step` is one call or one turn of the background task that writes a
posted buffer out.

* `Lzo` — what the runtime and the reader rely on of the LZO library.
* `dumpToFile`, `dumpToFileM`, `dumpnocheckToFileM`, `saveAccess`, `swapBuffer`
  — `dump_to_file` and the macros `DUMP_TO_FILE`, `DUMPNOCHECK_TO_FILE`,
  `SAVE_ACCESS` and `SWAP_BUFFER`.
* `onThreadBegin`, `onParallelBegin`, `onImplicitTaskBegin`, … — the callbacks.
* `run` — a history in which the background task is scheduled freely;
  `runNow` — one in which every dump is carried out as soon as it is posted.

A posted dump is the call `std::async(dump_to_file, ...)`: it holds a pointer to
the buffer, not its contents, and reads the buffer when it is executed.
-/

namespace Sword
namespace Rtl

open Bytes

/-! ## The compression library -/

/-- `lzo1x_1_compress` and `lzo1x_decompress`, with what is documented of them:
decompression inverts compression, and the output is bounded on both sides. -/
structure Lzo where
  /-- `lzo1x_1_compress`. -/
  compress : List UInt8 → List UInt8
  /-- `lzo1x_decompress`; `none` is every result other than `LZO_E_OK`. -/
  decompress : List UInt8 → Option (List UInt8)
  /-- Decompression inverts compression. -/
  decompress_compress : ∀ bs, decompress (compress bs) = some bs
  /-- A block of at least one item does not compress below eight bytes. -/
  le_length_compress : ∀ bs, sizeofTraceItem ≤ bs.length → 8 ≤ (compress bs).length
  /-- The worst case of the output size. -/
  length_compress_le : ∀ bs, (compress bs).length ≤ bs.length + bs.length / 16 + 67

/-- A library that stores every block as it is. -/
def Lzo.stored : Lzo where
  compress := id
  decompress := some
  decompress_compress := fun _ => rfl
  le_length_compress := fun bs h => le_trans (by decide) h
  length_compress_le := fun bs => by simp only [id_eq]; omega

/-! ## The state -/

/-- An `ompt_id_t`. -/
abbrev OmptId := UInt64

/-- `struct ParallelData`: what the runtime attaches to a parallel region and to
its implicit tasks. -/
structure ParallelData where
  freed : UInt32
  parallelId : OmptId
  parentParallelId : OmptId
  level : Int
  offset : UInt32
  span : UInt32
  deriving DecidableEq, Repr, Inhabited

/-- One line of the metafile. -/
structure MetaLine where
  parallelId : OmptId
  parentParallelId : OmptId
  bid : Nat
  offset : UInt32
  span : UInt32
  level : Int
  fileOffsetBegin : Nat
  fileOffsetEnd : Nat
  deriving DecidableEq, Repr

/-- The two buffers `__sword_accesses__` can point to. -/
inductive Buffer
  | accesses1 | accesses2
  deriving DecidableEq, Repr

/-- A dump that has been posted and not yet executed: the arguments of the call
`std::async(dump_to_file, ...)` that vary. -/
structure Dump where
  buffer : Buffer
  nmemb : Nat
  deriving DecidableEq, Repr

/-- History variables: no callback reads them, the statements about runs do. -/
structure History where
  /-- The items put into the buffer since the last metafile line. -/
  segment : List TraceItem := []
  /-- For every metafile line, the items put into the buffer before it and after
  the line before. -/
  segments : List (List TraceItem) := []
  /-- For every dump posted, what the buffer held when it was posted. -/
  posted : List (List TraceItem) := []
  /-- For every dump executed, what it read. -/
  dumped : List (List TraceItem) := []
  deriving DecidableEq, Repr

/-- The thread-local variables of the runtime.  File offsets and the barrier
counter are plain numbers: a file cannot reach the size at which they wrap. -/
structure Tls where
  /-- `*__sword_accesses1__` -/
  accesses1 : List TraceItem
  /-- `*__sword_accesses2__` -/
  accesses2 : List TraceItem
  /-- `__sword_accesses__` -/
  accesses : Buffer
  /-- `__sword_idx__` -/
  idx : Nat
  /-- The keys held by `set`, the filter of `SAVE_ACCESS`. -/
  set : Finset UInt64
  /-- The dump behind `fut`, as long as it has not been executed. -/
  fut : Option Dump
  /-- The bytes written to the data file. -/
  datafile : List UInt8
  /-- `__sword_file_offset_begin__` -/
  fileOffsetBegin : Nat
  /-- `__sword_file_offset_end__` -/
  fileOffsetEnd : Nat
  /-- The lines written to the metafile. -/
  metafile : List MetaLine
  /-- `__sword_status__` -/
  status : Int
  /-- `__sword_bid__` -/
  bid : Nat
  /-- `__sword_offset__` -/
  offset : UInt32
  /-- `__sword_span__` -/
  span : UInt32
  /-- History variables. -/
  hist : History

/-- The buffer a pointer designates. -/
def Tls.buffer (s : Tls) : Buffer → List TraceItem
  | .accesses1 => s.accesses1
  | .accesses2 => s.accesses2

/-! ## Dumps -/

/-- `dump_to_file`: the bytes it appends to the data file, the size of the
compressed block and the block itself. -/
def dumpToFile (lzo : Lzo) (accesses : List TraceItem) (nmemb : Nat) : List UInt8 :=
  let out := lzo.compress (encodeItems (accesses.take nmemb))
  leBytes 8 out.length ++ out

/-- The background task executes the posted dump, if there is one. -/
def runDump (lzo : Lzo) (s : Tls) : Tls :=
  match s.fut with
  | none => s
  | some d =>
    let out := dumpToFile lzo (s.buffer d.buffer) d.nmemb
    { s with
      fut := none
      datafile := s.datafile ++ out
      fileOffsetEnd := s.fileOffsetEnd + out.length
      hist := { s.hist with dumped := s.hist.dumped ++ [(s.buffer d.buffer).take d.nmemb] } }

/-- `fut.wait()`: a dump that has not been executed is executed now. -/
def futWait (lzo : Lzo) (s : Tls) : Tls := runDump lzo s

/-- `fut = std::async(dump_to_file, __sword_accesses__, ..., nmemb, ...)`. -/
def postDump (nmemb : Nat) (s : Tls) : Tls :=
  { s with
    fut := some ⟨s.accesses, nmemb⟩
    hist := { s.hist with posted := s.hist.posted ++ [(s.buffer s.accesses).take nmemb] } }

/-- An expression statement: the value is computed and not used. -/
def exprStatement (_value : Bool) (s : Tls) : Tls := s

/-- `SWAP_BUFFER`.  Both branches are comparisons (`==`), not assignments. -/
def swapBuffer (s : Tls) : Tls :=
  match s.accesses with
  | .accesses1 => exprStatement (decide (s.accesses = .accesses2)) s
  | .accesses2 => exprStatement (decide (s.accesses = .accesses1)) s

/-- The common tail of the two dump macros: wait, post, start over. -/
def flushBuffer (lzo : Lzo) (nmemb : Nat) (s : Tls) : Tls :=
  let s := futWait lzo s
  let s := postDump nmemb s
  swapBuffer { s with idx := 0, set := ∅ }

/-- `DUMP_TO_FILE`, expanded after every item that is put into the buffer. -/
def dumpToFileM (lzo : Lzo) (s : Tls) : Tls :=
  let s := { s with idx := s.idx + 1 }
  if s.idx = numOfAccesses then flushBuffer lzo numOfAccesses s else s

/-- `DUMPNOCHECK_TO_FILE`. -/
def dumpnocheckToFileM (lzo : Lzo) (s : Tls) : Tls :=
  if 0 < s.idx then flushBuffer lzo s.idx s else s

/-- `(*__sword_accesses__)[__sword_idx__] = item`. -/
def storeItem (x : TraceItem) (s : Tls) : Tls :=
  let s := { s with hist := { s.hist with segment := s.hist.segment ++ [x] } }
  match s.accesses with
  | .accesses1 => { s with accesses1 := s.accesses1.set s.idx x }
  | .accesses2 => { s with accesses2 := s.accesses2.set s.idx x }

/-- An item goes into the buffer: the store and `DUMP_TO_FILE` after it. -/
def putItem (lzo : Lzo) (x : TraceItem) (s : Tls) : Tls := dumpToFileM lzo (storeItem x s)

/-- `fprintf(__sword_metafile__, ...)` with the offsets of the current segment,
and `__sword_file_offset_begin__ = __sword_file_offset_end__` after it. -/
def writeMetaLine (par : ParallelData) (offset span : UInt32) (s : Tls) : Tls :=
  { s with
    metafile := s.metafile ++ [⟨par.parallelId, par.parentParallelId, s.bid, offset, span,
      par.level, s.fileOffsetBegin, s.fileOffsetEnd⟩]
    fileOffsetBegin := s.fileOffsetEnd
    hist := { s.hist with segment := [], segments := s.hist.segments ++ [s.hist.segment] } }

/-! ## The instrumentation calls and the callbacks -/

/-- `SAVE_ACCESS`, the body of every `__sword_read*`, `__sword_write*` and
`__sword_atomic*` function: the item goes into the buffer when the filter did
not hold its hash. -/
def saveAccess (lzo : Lzo) (hashCombine : UInt64 → UInt64 → UInt64) (asize : AccessSize)
    (atype : AccessType) (addr callerpc : UInt64) (s : Tls) : Tls :=
  let item := TraceItem.dataAccess (Access.make asize atype addr callerpc)
  if hashValue hashCombine item ∈ s.set then s
  else putItem lzo item { s with set := insert (hashValue hashCombine item) s.set }

/-- `on_ompt_callback_thread_begin`. -/
def onThreadBegin : Tls where
  accesses1 := List.replicate numOfAccesses default
  accesses2 := List.replicate numOfAccesses default
  accesses := .accesses1
  idx := 0
  set := ∅
  fut := none
  datafile := []
  fileOffsetBegin := 0
  fileOffsetEnd := 0
  metafile := []
  status := 0
  bid := 0
  offset := 0
  span := 0
  hist := {}

/-- `on_ompt_callback_parallel_begin`: the new state and the `ParallelData` the
region gets.  `parentTask` is only read when the region is a nested one. -/
def onParallelBegin (parentTask : ParallelData) (pid : OmptId) (threadNum teamSize : UInt32)
    (s : Tls) : Tls × ParallelData :=
  let s := { s with status := s.status + 1 }
  if s.status = 1 then (s, ⟨0, pid, 0, s.status, threadNum, teamSize⟩)
  else
    let par : ParallelData := ⟨0, pid, parentTask.parallelId, s.status, threadNum, teamSize⟩
    if s.span ≠ 0 then ({ s with offset := s.offset + s.span, span := teamSize }, par)
    else ({ s with offset := threadNum + teamSize, span := teamSize }, par)

/-- `on_ompt_callback_implicit_task` with `ompt_scope_begin`; `par` is the copy of
the region's data that the new task gets. -/
def onImplicitTaskBegin (lzo : Lzo) (par : ParallelData) (teamSize threadNum : UInt32)
    (s : Tls) : Tls :=
  let s := { s with status := par.level }
  if s.status = 1 then
    let s := { s with bid := 0 }
    let s := futWait lzo (dumpnocheckToFileM lzo s)
    let s := writeMetaLine par threadNum teamSize s
    if s.span = 0 then { s with offset := threadNum, span := teamSize } else s
  else s

/-- `on_ompt_callback_implicit_task` with `ompt_scope_end`. -/
def onImplicitTaskEnd (s : Tls) : Tls := { s with status := s.status - 1 }

/-- `ompt_sync_region_kind_t`. -/
inductive SyncRegionKind
  | barrier | taskwait | taskgroup
  deriving DecidableEq, Repr

/-- `on_ompt_callback_sync_region` with `ompt_scope_begin`; `par` is the data of
the task that enters the region.  The kind of the region is not looked at. -/
def onSyncRegionBegin (lzo : Lzo) (_kind : SyncRegionKind) (par : ParallelData) (s : Tls) : Tls :=
  let s := futWait lzo (dumpnocheckToFileM lzo s)
  let s := writeMetaLine par s.offset s.span s
  { s with bid := s.bid + 1 }

/-- `on_ompt_callback_mutex_acquired`. -/
def onMutexAcquired (lzo : Lzo) (kind : UInt32) (waitId : UInt64) (s : Tls) : Tls :=
  putItem lzo (.mutexAcquired ⟨kind, waitId⟩) s

/-- `on_ompt_callback_mutex_released`. -/
def onMutexReleased (lzo : Lzo) (kind : UInt32) (waitId : UInt64) (s : Tls) : Tls :=
  putItem lzo (.mutexReleased ⟨kind, waitId⟩) s

/-! ## Histories -/

/-- What can happen on a thread between `thread_begin` and `thread_end`.  The end
of a sync region and of a parallel region leave the thread-local state alone. -/
inductive Callback
  | access (asize : AccessSize) (atype : AccessType) (addr callerpc : UInt64)
  | mutexAcquired (kind : UInt32) (waitId : UInt64)
  | mutexReleased (kind : UInt32) (waitId : UInt64)
  | parallelBegin (parentTask : ParallelData) (pid : OmptId) (threadNum teamSize : UInt32)
  | parallelEnd
  | implicitTaskBegin (par : ParallelData) (teamSize threadNum : UInt32)
  | implicitTaskEnd
  | syncRegionBegin (kind : SyncRegionKind) (par : ParallelData)
  | syncRegionEnd
  deriving DecidableEq, Repr

section Machine

variable (lzo : Lzo) (hashCombine : UInt64 → UInt64 → UInt64)

/-- One call into the runtime. -/
def callback (s : Tls) : Callback → Tls
  | .access asize atype addr callerpc => saveAccess lzo hashCombine asize atype addr callerpc s
  | .mutexAcquired kind waitId => onMutexAcquired lzo kind waitId s
  | .mutexReleased kind waitId => onMutexReleased lzo kind waitId s
  | .parallelBegin parentTask pid threadNum teamSize =>
      (onParallelBegin parentTask pid threadNum teamSize s).1
  | .parallelEnd => s
  | .implicitTaskBegin par teamSize threadNum => onImplicitTaskBegin lzo par teamSize threadNum s
  | .implicitTaskEnd => onImplicitTaskEnd s
  | .syncRegionBegin kind par => onSyncRegionBegin lzo kind par s
  | .syncRegionEnd => s

/-- One event on a thread: a call into the runtime, or the background task gets
to execute the dump that is in flight. -/
inductive Event
  | call (c : Callback)
  | background
  deriving DecidableEq, Repr

/-- One event. -/
def step (s : Tls) : Event → Tls
  | .call c => callback lzo hashCombine s c
  | .background => runDump lzo s

/-- A history under an arbitrary schedule of the background task. -/
def run (s : Tls) (evs : List Event) : Tls := Run.exec (step lzo hashCombine) s evs

/-- One call under the schedule that executes every dump as it is posted. -/
def stepNow (s : Tls) (c : Callback) : Tls := runDump lzo (callback lzo hashCombine s c)

/-- A history under that schedule. -/
def runNow (s : Tls) (cs : List Callback) : Tls := Run.exec (stepNow lzo hashCombine) s cs

/-- Executing every dump at once is one of the schedules. -/
theorem runNow_eq_run (s : Tls) (cs : List Callback) :
    runNow lzo hashCombine s cs =
      run lzo hashCombine s (cs.flatMap fun c => [.call c, .background]) := by
  induction cs generalizing s with
  | nil => rfl
  | cons c cs ih => exact ih (stepNow lzo hashCombine s c)

end Machine

/-- As the code stands, swapping the buffers does nothing. -/
@[simp] theorem swapBuffer_eq (s : Tls) : swapBuffer s = s := by
  unfold swapBuffer
  split <;> rfl

end Rtl
end Sword
