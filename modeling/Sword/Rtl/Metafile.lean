import Sword.Lib.Blocks
import Sword.Rtl.DoubleBuffer

/-!
# The data file and the metafile

A thread's data file is a sequence of framed blocks; each line of its metafile
names a byte range of it.  Here is how the two grow together.

* `runDump_run` — however the background task is scheduled, as long as it writes
  what was posted the thread ends, once the dump in flight is executed, in the
  state it would have ended in had every dump been executed at once.
* `LogInv` — the invariant of that schedule: the open range holds the full
  blocks of the open segment, the buffer holds the rest of it, the ranges of the
  lines tile the file up to the open range, and each holds the blocks of its
  segment.
* `logInv_run` — it holds after every intact history.
-/

namespace Sword
namespace Rtl

open Blocks

variable {lzo : Lzo} {hashCombine : UInt64 → UInt64 → UInt64} {s : Tls}

/-! ## Intact schedules end like the immediate one -/

theorem runDump_of_idle (h : s.fut = none) : runDump lzo s = s := by
  rw [runDump, h]

theorem runDump_runDump : runDump lzo (runDump lzo s) = runDump lzo s :=
  runDump_of_idle fut_runDump

theorem flushBuffer_runDump (n : Nat) :
    flushBuffer lzo n (runDump lzo s) = flushBuffer lzo n s := by
  rw [flushBuffer, futWait, runDump_runDump]
  rfl

/-- `DUMPNOCHECK_TO_FILE` and `fut.wait()` start by executing the dump in flight. -/
theorem flushNow_runDump :
    futWait lzo (dumpnocheckToFileM lzo (runDump lzo s)) =
      futWait lzo (dumpnocheckToFileM lzo s) := by
  rw [dumpnocheckToFileM, dumpnocheckToFileM, idx_runDump]
  split
  · rw [flushBuffer_runDump]
  · rw [futWait, runDump_runDump, futWait]

theorem runDump_of_some {d : Dump} (hf : s.fut = some d) :
    runDump lzo s = { s with
      fut := none
      datafile := s.datafile ++ dumpToFile lzo (s.buffer d.buffer) d.nmemb
      fileOffsetEnd := s.fileOffsetEnd + (dumpToFile lzo (s.buffer d.buffer) d.nmemb).length
      hist := { s.hist with dumped := s.hist.dumped ++ [(s.buffer d.buffer).take d.nmemb] } } := by
  rw [runDump, hf]

/-- A new status may be set before or after a dump. -/
theorem runDump_status (f : Int → Int) :
    runDump lzo { s with status := f s.status } =
      runDump lzo { runDump lzo s with status := f (runDump lzo s).status } := by
  rcases Option.eq_none_or_eq_some s.fut with hf | ⟨d, hf⟩
  · rw [runDump_of_idle (s := s) hf]
  · rw [runDump_of_some (s := s) hf]
    exact runDump_of_some hf

theorem runDump_parallelBegin (parentTask : ParallelData) (pid : OmptId)
    (threadNum teamSize : UInt32) :
    runDump lzo (onParallelBegin parentTask pid threadNum teamSize s).1 =
      runDump lzo (onParallelBegin parentTask pid threadNum teamSize (runDump lzo s)).1 := by
  rcases Option.eq_none_or_eq_some s.fut with hf | ⟨d, hf⟩
  · rw [runDump_of_idle (s := s) hf]
  · rw [runDump_of_some (s := s) hf]
    unfold onParallelBegin
    dsimp only
    split
    · exact runDump_of_some hf
    · split
      · exact runDump_of_some hf
      · exact runDump_of_some hf

/-- An item that agrees with the slot of the dump in flight may be stored before
or after the dump is executed. -/
theorem BufferInv.runDump_bumpItem (h : BufferInv lzo s) {x : TraceItem} (hx : SlotAgrees x s) :
    Rtl.runDump lzo (Rtl.bumpItem x s) = Rtl.bumpItem x (Rtl.runDump lzo s) := by
  rw [h.storeItem_eq, h.runDump.storeItem_eq]
  cases hf : s.fut with
  | none => simp [Rtl.runDump, hf]
  | some d =>
    obtain ⟨hb, -⟩ := h.inFlight d hf
    have htake : (s.accesses1.set s.idx x).take d.nmemb = s.accesses1.take d.nmemb := by
      by_cases hlt : s.idx < d.nmemb
      · have hslot := hx d hf hlt
        rw [hb, Tls.buffer] at hslot
        obtain ⟨_, rfl⟩ := List.getElem?_eq_some_iff.1 hslot
        rw [List.set_getElem_self]
      · exact List.take_set_of_le (by omega)
    simp [Rtl.runDump, hf, hb, Tls.buffer, dumpToFile, htake]

theorem Ready.runDump_putItem (h : Ready lzo s) {x : TraceItem} (hx : SlotAgrees x s) :
    Rtl.runDump lzo (Rtl.putItem lzo x s) =
      Rtl.runDump lzo (Rtl.putItem lzo x (Rtl.runDump lzo s)) := by
  have hb := h.toBufferInv.runDump_bumpItem hx
  rw [putItem_eq, putItem_eq, idx_runDump]
  split
  · rw [← hb, flushBuffer_runDump]
  · rw [← hb, runDump_runDump]

/-- An access: what the dump writes does not depend on when it does. -/
theorem Ready.runDump_saveAccess (h : Ready lzo s) {asize : AccessSize} {atype : AccessType}
    {addr callerpc : UInt64}
    (hc : Harmless hashCombine s (.call (.access asize atype addr callerpc))) :
    Rtl.runDump lzo (Rtl.callback lzo hashCombine s (.access asize atype addr callerpc)) =
      Rtl.runDump lzo
        (Rtl.callback lzo hashCombine (Rtl.runDump lzo s) (.access asize atype addr callerpc)) := by
  unfold Rtl.callback saveAccess
  dsimp only
  rw [set_runDump]
  split
  · rw [runDump_runDump]
  · rename_i hmem
    have hslot := hc (.dataAccess (Access.make asize atype addr callerpc))
      (by simp [storedItem, hmem])
    have hins := (h.relabel (insert (hashValue hashCombine
      (.dataAccess (Access.make asize atype addr callerpc))) s.set) s.status s.bid s.offset
        s.span).1
    rw [hins.runDump_putItem hslot]
    rcases Option.eq_none_or_eq_some s.fut with hf | ⟨d, hf⟩
    · rw [runDump_of_idle (s := s) hf]
      exact congrArg (Rtl.runDump lzo ∘ Rtl.putItem lzo _) (runDump_of_idle hf)
    · rw [runDump_of_some (s := s) hf]
      exact congrArg (Rtl.runDump lzo ∘ Rtl.putItem lzo _) (runDump_of_some hf)

/-- The beginning of a task: a task of an outermost region waits for the dump, another one
leaves it alone. -/
theorem runDump_implicitTaskBegin (par : ParallelData) (teamSize threadNum : UInt32) :
    Rtl.runDump lzo (onImplicitTaskBegin lzo par teamSize threadNum s) =
      Rtl.runDump lzo (onImplicitTaskBegin lzo par teamSize threadNum (Rtl.runDump lzo s)) := by
  have hstep : onImplicitTaskBegin lzo par teamSize threadNum (Rtl.runDump lzo s) =
      if par.level = 1 then onImplicitTaskBegin lzo par teamSize threadNum s
      else { Rtl.runDump lzo s with status := par.level } := by
    unfold onImplicitTaskBegin
    dsimp only
    split
    · have hsame : { Rtl.runDump lzo s with status := par.level, bid := 0 } =
          Rtl.runDump lzo { s with status := par.level, bid := 0 } := by
        unfold Rtl.runDump
        dsimp only
        split <;> rfl
      rw [hsame, flushNow_runDump]
    · rfl
  rw [hstep]
  split
  · rfl
  · rename_i hlevel
    unfold onImplicitTaskBegin
    dsimp only
    rw [if_neg hlevel]
    exact runDump_status fun _ => par.level

/-- **The simulation step.**  A harmless call followed by the dump in flight is
the call made after that dump, with its own dump executed at once. -/
theorem Ready.runDump_callback (h : Ready lzo s) {c : Callback}
    (hc : Harmless hashCombine s (.call c)) :
    Rtl.runDump lzo (Rtl.callback lzo hashCombine s c) =
      stepNow lzo hashCombine (Rtl.runDump lzo s) c := by
  unfold stepNow
  cases c with
  | access asize atype addr callerpc => exact h.runDump_saveAccess hc
  | mutexAcquired kind waitId => exact h.runDump_putItem (hc _ rfl)
  | mutexReleased kind waitId => exact h.runDump_putItem (hc _ rfl)
  | parallelBegin parentTask pid threadNum teamSize =>
    exact runDump_parallelBegin parentTask pid threadNum teamSize
  | parallelEnd => exact runDump_runDump.symm
  | implicitTaskBegin par teamSize threadNum =>
    exact runDump_implicitTaskBegin par teamSize threadNum
  | implicitTaskEnd => exact runDump_status (· - 1)
  | syncRegionBegin kind par =>
    show Rtl.runDump lzo (onSyncRegionBegin lzo kind par s) =
      Rtl.runDump lzo (onSyncRegionBegin lzo kind par (Rtl.runDump lzo s))
    unfold onSyncRegionBegin
    rw [flushNow_runDump]
  | syncRegionEnd => exact runDump_runDump.symm

/-- The calls of a history. -/
def calls : List Event → List Callback
  | [] => []
  | .call c :: evs => c :: calls evs
  | .background :: evs => calls evs

/-- A history whose dumps write what was posted ends, once the dump in flight is
executed, like the history that executes every dump at once. -/
theorem runDump_run (h : Ready lzo s) {evs : List Event}
    (hg : Run.Guarded (step lzo hashCombine) (Harmless hashCombine) s evs) :
    runDump lzo (run lzo hashCombine s evs) =
      runNow lzo hashCombine (runDump lzo s) (calls evs) := by
  induction evs generalizing s with
  | nil => rfl
  | cons e evs ih =>
    have hih := ih (h.step e) hg.2
    rw [run, Run.exec_cons, ← run, hih]
    cases e with
    | call c => rw [step, h.runDump_callback hg.1]; rfl
    | background => rw [step, runDump_runDump]; rfl

/-- Without a dump in flight every item is harmless, so the immediate schedule
is intact. -/
theorem intact_runNow (lzo : Lzo) (hashCombine : UInt64 → UInt64 → UInt64) (cs : List Callback) :
    Intact (run lzo hashCombine onThreadBegin (cs.flatMap fun c => [.call c, .background])) := by
  refine (intact_run_iff (ready_onThreadBegin lzo) _).2 ⟨intact_onThreadBegin, ?_⟩
  have hidle : ∀ (cs : List Callback) (s : Tls), s.fut = none →
      Run.Guarded (step lzo hashCombine) (Harmless hashCombine) s
        (cs.flatMap fun c => [.call c, .background]) := by
    intro cs
    induction cs with
    | nil => exact fun _ _ => trivial
    | cons c cs ih =>
      intro s hs
      refine ⟨fun x _ d hd => ?_, trivial, ih _ fut_runDump⟩
      rw [hs] at hd
      cases hd
  exact hidle cs _ rfl

/-! ## Lines and segments -/

/-- The range of a line holds the blocks its segment was cut into. -/
def Covers (lzo : Lzo) (datafile : List UInt8) (l : MetaLine) (segment : List TraceItem) : Prop :=
  ∃ pre tail, datafile = pre ++ ((cut numOfAccesses segment).flatMap (frame lzo) ++ tail) ∧
    l.fileOffsetBegin = pre.length ∧
    l.fileOffsetEnd = pre.length + ((cut numOfAccesses segment).flatMap (frame lzo)).length

theorem Covers.append {datafile : List UInt8} {l : MetaLine} {segment : List TraceItem}
    (h : Covers lzo datafile l segment) (more : List UInt8) :
    Covers lzo (datafile ++ more) l segment := by
  obtain ⟨pre, tail, hd, hb, he⟩ := h
  exact ⟨pre, tail ++ more, by rw [hd]; simp, hb, he⟩

/-- The ranges of the lines follow one another from `b` to `e`. -/
def Tiles : Nat → List MetaLine → Nat → Prop
  | b, [], e => b = e
  | b, l :: ls, e => l.fileOffsetBegin = b ∧ b ≤ l.fileOffsetEnd ∧ Tiles l.fileOffsetEnd ls e

theorem Tiles.concat {ls : List MetaLine} {l : MetaLine} {b e e' : Nat} (h : Tiles b ls e)
    (hb : l.fileOffsetBegin = e) (he : l.fileOffsetEnd = e') (hle : e ≤ e') :
    Tiles b (ls ++ [l]) e' := by
  induction ls generalizing b with
  | nil =>
    obtain rfl : b = e := h
    exact ⟨hb, he ▸ hle, he⟩
  | cons k ks ih => exact ⟨h.1, h.2.1, ih h.2.2⟩

/-- The files between two calls when every dump is executed as it is posted;
`blocks` are the ones in the open range. -/
structure FileInv (lzo : Lzo) (s : Tls) (blocks : List (List TraceItem)) : Prop
    extends BufferInv lzo s where
  /-- No dump is in flight. -/
  fut : s.fut = none
  /-- `__sword_file_offset_end__` is the size of the data file. -/
  fileOffsetEnd : s.fileOffsetEnd = s.datafile.length
  /-- What the open range holds. -/
  openRange : ∃ pre : List UInt8, pre.length = s.fileOffsetBegin ∧
    s.datafile = pre ++ blocks.flatMap (frame lzo)
  /-- The ranges of the lines tile the file up to the open range. -/
  tiles : Tiles 0 s.metafile s.fileOffsetBegin
  /-- Each of them holds the blocks of its segment. -/
  lines : List.Forall₂ (Covers lzo s.datafile) s.metafile s.hist.segments

/-- The invariant between two calls: the open range holds the full blocks of the
open segment, and the buffer the rest of it. -/
structure LogInv (lzo : Lzo) (s : Tls) : Prop
    extends FileInv lzo s (fillAll numOfAccesses s.hist.segment).1 where
  /-- What the buffer is filled with. -/
  buffer : s.accesses1.take s.idx = (fillAll numOfAccesses s.hist.segment).2
  /-- There is room for an item. -/
  idx_lt : s.idx < numOfAccesses

theorem logInv_onThreadBegin (lzo : Lzo) : LogInv lzo onThreadBegin where
  toBufferInv := bufferInv_onThreadBegin lzo
  idx_lt := numOfAccesses_pos
  fut := rfl
  fileOffsetEnd := rfl
  openRange := ⟨[], rfl, rfl⟩
  buffer := rfl
  tiles := rfl
  lines := .nil

/-! ## The steps -/

/-- A flush whose dump is executed at once. -/
theorem runDump_flushBuffer (hf : s.fut = none) (ha : s.accesses = .accesses1) (n : Nat) :
    runDump lzo (flushBuffer lzo n s) = { s with
      fut := none
      idx := 0
      set := ∅
      datafile := s.datafile ++ frame lzo (s.accesses1.take n)
      fileOffsetEnd := s.fileOffsetEnd + (frame lzo (s.accesses1.take n)).length
      hist := { s.hist with
        posted := s.hist.posted ++ [s.accesses1.take n]
        dumped := s.hist.dumped ++ [s.accesses1.take n] } } := by
  have hframe := dumpToFile_eq_frame lzo s.accesses1 n
  rw [flushBuffer_eq, runDump_of_idle hf]
  rw [runDump_of_some (d := ⟨s.accesses, n⟩) rfl, ← hframe]
  simp [ha, Tls.buffer]

variable {blocks : List (List TraceItem)}

/-- A flush appends a block to the open range. -/
theorem FileInv.flush (h : FileInv lzo s blocks) :
    FileInv lzo (Rtl.runDump lzo (Rtl.flushBuffer lzo s.idx s))
      (blocks ++ [s.accesses1.take s.idx]) := by
  have hbuf := h.toBufferInv.flushBuffer.runDump
  obtain ⟨pre, hpre, hdata⟩ := h.openRange
  rw [runDump_flushBuffer h.fut h.accesses] at hbuf ⊢
  refine ⟨hbuf, rfl, ?_, ⟨pre, hpre, ?_⟩, h.tiles, ?_⟩
  · simp [h.fileOffsetEnd]
  · simp [hdata]
  · exact h.lines.imp fun _ _ hc => hc.append _

theorem FileInv.bumpItem (h : FileInv lzo s blocks) (x : TraceItem) (hlt : s.idx < numOfAccesses) :
    FileInv lzo (Rtl.bumpItem x s) blocks := by
  have hbuf := h.toBufferInv.bumpItem hlt x
  rw [h.toBufferInv.storeItem_eq] at hbuf ⊢
  exact ⟨hbuf, h.fut, h.fileOffsetEnd, h.openRange, h.tiles, h.lines⟩

/-- A metafile line closes the open range. -/
theorem FileInv.writeMetaLine (h : FileInv lzo s blocks)
    (hblocks : blocks = cut numOfAccesses s.hist.segment) (par : ParallelData)
    (offset span : UInt32) : FileInv lzo (Rtl.writeMetaLine par offset span s) [] := by
  obtain ⟨pre, hpre, hdata⟩ := h.openRange
  have hend : s.fileOffsetEnd = pre.length + (blocks.flatMap (frame lzo)).length := by
    rw [h.fileOffsetEnd, hdata, List.length_append]
  refine ⟨h.toBufferInv.writeMetaLine par offset span, h.fut, h.fileOffsetEnd,
    ⟨s.datafile, h.fileOffsetEnd.symm, (List.append_nil _).symm⟩, ?_, ?_⟩
  · refine h.tiles.concat ?_ ?_ ?_
    · rfl
    · rfl
    · show s.fileOffsetBegin ≤ s.fileOffsetEnd
      omega
  · refine List.rel_append h.lines (.cons ⟨pre, [], ?_, hpre.symm, ?_⟩ .nil)
    · rw [← hblocks, List.append_nil]; exact hdata
    · rw [← hblocks]; exact hend

theorem LogInv.relabel (h : LogInv lzo s) (set : Finset UInt64) (status : Int) (bid : Nat)
    (offset span : UInt32) : LogInv lzo
      { s with set := set, status := status, bid := bid, offset := offset, span := span } :=
  ⟨⟨((Ready.mk h.toBufferInv h.idx_lt).relabel set status bid offset span).1.toBufferInv, h.fut,
    h.fileOffsetEnd, h.openRange, h.tiles, h.lines⟩, h.buffer, h.idx_lt⟩

theorem LogInv.length_buffer (h : LogInv lzo s) :
    (fillAll numOfAccesses s.hist.segment).2.length = s.idx := by
  rw [← h.buffer, List.length_take, h.length]
  exact Nat.min_eq_left h.idx_le

/-- An item goes into the buffer; a full buffer goes out as a block. -/
theorem LogInv.putItem (h : LogInv lzo s) (x : TraceItem) :
    LogInv lzo (Rtl.runDump lzo (Rtl.putItem lzo x s)) := by
  have hidx : s.idx < s.accesses1.length := by rw [h.length]; exact h.idx_lt
  have htake : (Rtl.bumpItem x s).accesses1.take (Rtl.bumpItem x s).idx =
      s.accesses1.take s.idx ++ [x] := by
    rw [h.toBufferInv.storeItem_eq]
    exact take_set_succ x hidx
  have hseg : (Rtl.bumpItem x s).hist.segment = s.hist.segment ++ [x] := by
    rw [h.toBufferInv.storeItem_eq]
  have hfill : fillAll numOfAccesses (s.hist.segment ++ [x]) =
      if s.idx + 1 = numOfAccesses then
        ((fillAll numOfAccesses s.hist.segment).1 ++ [s.accesses1.take s.idx ++ [x]], [])
      else ((fillAll numOfAccesses s.hist.segment).1, s.accesses1.take s.idx ++ [x]) := by
    rw [fillAll_concat, fill, h.length_buffer, h.buffer]
  have hbump := h.toFileInv.bumpItem x h.idx_lt
  rw [putItem_eq]
  split
  · rename_i hfull
    have hflush := hbump.flush
    rw [if_pos hfull] at hfill
    rw [htake, show (Rtl.bumpItem x s).idx = numOfAccesses from hfull] at hflush
    have hseg' :
        (Rtl.runDump lzo (Rtl.flushBuffer lzo numOfAccesses (Rtl.bumpItem x s))).hist.segment =
          s.hist.segment ++ [x] := by
      rw [runDump_flushBuffer hbump.fut hbump.accesses]; exact hseg
    have hidx' :
        (Rtl.runDump lzo (Rtl.flushBuffer lzo numOfAccesses (Rtl.bumpItem x s))).idx = 0 := by
      rw [runDump_flushBuffer hbump.fut hbump.accesses]
    refine ⟨?_, ?_, ?_⟩
    · rw [hseg', hfill]; exact hflush
    · rw [hseg', hidx', hfill]; rfl
    · rw [hidx']; exact numOfAccesses_pos
  · rename_i hnot
    rw [if_neg hnot] at hfill
    rw [runDump_of_idle hbump.fut]
    refine ⟨?_, ?_, ?_⟩
    · rw [hseg, hfill]; exact hbump
    · rw [hseg, hfill]; exact htake
    · have := h.idx_lt
      show s.idx + 1 < numOfAccesses
      omega

/-- Before a metafile line the rest of the open segment goes out as a block. -/
theorem LogInv.flushNow (h : LogInv lzo s) :
    (futWait lzo (dumpnocheckToFileM lzo s)).idx = 0 ∧
      (futWait lzo (dumpnocheckToFileM lzo s)).hist.segment = s.hist.segment ∧
      FileInv lzo (futWait lzo (dumpnocheckToFileM lzo s)) (cut numOfAccesses s.hist.segment) := by
  have hlen := h.length_buffer
  rw [dumpnocheckToFileM, futWait]
  split
  · rename_i hpos
    have hcut : cut numOfAccesses s.hist.segment =
        (fillAll numOfAccesses s.hist.segment).1 ++ [s.accesses1.take s.idx] := by
      rw [cut, close, if_neg, h.buffer]
      exact List.ne_nil_of_length_pos (by omega)
    rw [hcut]
    have hflush := h.toFileInv.flush
    rw [runDump_flushBuffer h.fut h.accesses] at hflush ⊢
    exact ⟨rfl, rfl, hflush⟩
  · rename_i hzero
    have hcut : cut numOfAccesses s.hist.segment = (fillAll numOfAccesses s.hist.segment).1 := by
      rw [cut, close, if_pos]
      exact List.eq_nil_of_length_eq_zero (by omega)
    rw [hcut, runDump_of_idle h.fut]
    exact ⟨by omega, rfl, h.toFileInv⟩

theorem LogInv.writeMetaLine (h : LogInv lzo s) (par : ParallelData) (offset span : UInt32) :
    LogInv lzo (Rtl.writeMetaLine par offset span (futWait lzo (dumpnocheckToFileM lzo s))) := by
  obtain ⟨hidx, hseg, hfile⟩ := h.flushNow
  generalize futWait lzo (dumpnocheckToFileM lzo s) = t at *
  refine ⟨hfile.writeMetaLine (by rw [hseg]) par offset span, ?_, ?_⟩
  · show t.accesses1.take t.idx = _
    rw [hidx]
    rfl
  · show t.idx < numOfAccesses
    rw [hidx]
    exact numOfAccesses_pos

/-- **The step law of the files.** -/
theorem LogInv.stepNow (h : LogInv lzo s) (c : Callback) :
    LogInv lzo (stepNow lzo hashCombine s c) := by
  have hidle : ∀ {t : Tls}, LogInv lzo t → LogInv lzo (Rtl.runDump lzo t) :=
    fun ht => (runDump_of_idle ht.fut).symm ▸ ht
  unfold Rtl.stepNow
  cases c with
  | access asize atype addr callerpc =>
    unfold Rtl.callback saveAccess
    dsimp only
    split
    · exact hidle h
    · exact (h.relabel _ s.status s.bid s.offset s.span).putItem _
  | mutexAcquired kind waitId => exact h.putItem _
  | mutexReleased kind waitId => exact h.putItem _
  | parallelBegin parentTask pid threadNum teamSize =>
    refine hidle ?_
    unfold Rtl.callback onParallelBegin
    dsimp only
    split
    · exact h.relabel s.set (s.status + 1) s.bid s.offset s.span
    · split
      · exact h.relabel s.set (s.status + 1) s.bid (s.offset + s.span) teamSize
      · exact h.relabel s.set (s.status + 1) s.bid (threadNum + teamSize) teamSize
  | parallelEnd => exact hidle h
  | implicitTaskBegin par teamSize threadNum =>
    refine hidle ?_
    unfold Rtl.callback onImplicitTaskBegin
    dsimp only
    split
    · have h1 := (h.relabel s.set par.level 0 s.offset s.span).writeMetaLine par threadNum teamSize
      split
      · exact h1.relabel _ _ _ threadNum teamSize
      · exact h1
    · exact h.relabel s.set par.level s.bid s.offset s.span
  | implicitTaskEnd => exact hidle (h.relabel s.set (s.status - 1) s.bid s.offset s.span)
  | syncRegionBegin kind par =>
    exact hidle ((h.writeMetaLine par _ _).relabel _ _ (_ + 1) _ _)
  | syncRegionEnd => exact hidle h

/-- The invariant holds after every history that executes its dumps at once. -/
theorem logInv_runNow (lzo : Lzo) (hashCombine : UInt64 → UInt64 → UInt64) (cs : List Callback) :
    LogInv lzo (runNow lzo hashCombine onThreadBegin cs) :=
  Run.invariant (P := LogInv lzo) (fun _ c hs => hs.stepNow c) (logInv_onThreadBegin lzo) cs

/-- It holds after every history whose dumps write what was posted, once the dump
in flight is executed. -/
theorem logInv_run {evs : List Event} (hi : Intact (run lzo hashCombine onThreadBegin evs)) :
    LogInv lzo (runDump lzo (run lzo hashCombine onThreadBegin evs)) := by
  have hg := ((intact_run_iff (ready_onThreadBegin lzo) evs).1 hi).2
  rw [runDump_run (ready_onThreadBegin lzo) hg, runDump_of_idle rfl]
  exact logInv_runNow lzo hashCombine (calls evs)

/-! ## Which calls write a line -/

/-- What the buffer operations leave alone. -/
structure SameLabels (s s' : Tls) : Prop where
  metafile : s'.metafile = s.metafile
  bid : s'.bid = s.bid
  status : s'.status = s.status

theorem SameLabels.trans {s₁ s₂ s₃ : Tls} (h : SameLabels s₁ s₂) (h' : SameLabels s₂ s₃) :
    SameLabels s₁ s₃ :=
  ⟨h'.metafile.trans h.metafile, h'.bid.trans h.bid, h'.status.trans h.status⟩

theorem sameLabels_runDump : SameLabels s (runDump lzo s) := by
  unfold runDump
  cases s.fut <;> exact ⟨rfl, rfl, rfl⟩

theorem sameLabels_flushBuffer (n : Nat) : SameLabels s (flushBuffer lzo n s) := by
  rw [flushBuffer_eq]
  have h : SameLabels s (runDump lzo s) := sameLabels_runDump
  exact ⟨h.metafile, h.bid, h.status⟩

theorem sameLabels_putItem (x : TraceItem) : SameLabels s (putItem lzo x s) := by
  have hbump : SameLabels s (bumpItem x s) := by
    unfold bumpItem storeItem
    cases s.accesses <;> exact ⟨rfl, rfl, rfl⟩
  rw [putItem_eq]
  split
  · exact hbump.trans (sameLabels_flushBuffer _)
  · exact hbump

theorem sameLabels_flushNow (lzo : Lzo) (s : Tls) :
    SameLabels s (futWait lzo (dumpnocheckToFileM lzo s)) := by
  unfold futWait dumpnocheckToFileM
  split
  · exact (sameLabels_flushBuffer _).trans sameLabels_runDump
  · exact sameLabels_runDump

/-- The region a call writes a metafile line for. -/
def lineOf : Callback → Option ParallelData
  | .implicitTaskBegin par _ _ => if par.level = 1 then some par else none
  | .syncRegionBegin _ par => some par
  | _ => none

/-- The barrier number a call puts into its line, and the one it leaves behind. -/
def lineBid (bid : Nat) : Callback → Nat × Nat
  | .implicitTaskBegin _ _ _ => (0, 0)
  | _ => (bid, bid + 1)

/-- A call that writes no line leaves the metafile and the barrier counter alone. -/
theorem callback_of_lineOf_none {c : Callback} (hc : lineOf c = none) :
    (callback lzo hashCombine s c).metafile = s.metafile ∧
      (callback lzo hashCombine s c).bid = s.bid := by
  cases c with
  | access asize atype addr callerpc =>
    unfold callback saveAccess
    dsimp only
    split
    · exact ⟨rfl, rfl⟩
    · exact ⟨(sameLabels_putItem _).metafile, (sameLabels_putItem _).bid⟩
  | mutexAcquired kind waitId => exact ⟨(sameLabels_putItem _).metafile, (sameLabels_putItem _).bid⟩
  | mutexReleased kind waitId => exact ⟨(sameLabels_putItem _).metafile, (sameLabels_putItem _).bid⟩
  | parallelBegin parentTask pid threadNum teamSize =>
    unfold callback onParallelBegin
    dsimp only
    split
    · exact ⟨rfl, rfl⟩
    · split <;> exact ⟨rfl, rfl⟩
  | parallelEnd => exact ⟨rfl, rfl⟩
  | implicitTaskBegin par teamSize threadNum =>
    have hlevel : par.level ≠ 1 := by
      intro h
      simp [lineOf, h] at hc
    unfold callback onImplicitTaskBegin
    dsimp only
    rw [if_neg hlevel]
    exact ⟨rfl, rfl⟩
  | implicitTaskEnd => exact ⟨rfl, rfl⟩
  | syncRegionBegin kind par => cases hc
  | syncRegionEnd => exact ⟨rfl, rfl⟩

/-- A call that writes a line appends one with the number of the region and the
barrier number, and sets the barrier counter. -/
theorem callback_of_lineOf_some (lzo : Lzo) (hashCombine : UInt64 → UInt64 → UInt64) (s : Tls)
    {c : Callback} {par : ParallelData} (hc : lineOf c = some par) :
    ∃ l : MetaLine, (callback lzo hashCombine s c).metafile = s.metafile ++ [l] ∧
      l.parallelId = par.parallelId ∧ l.bid = (lineBid s.bid c).1 ∧
        (callback lzo hashCombine s c).bid = (lineBid s.bid c).2 := by
  cases c with
  | implicitTaskBegin par' teamSize threadNum =>
    have hpar : (if par'.level = 1 then some par' else none) = some par := hc
    by_cases hlevel : par'.level = 1
    · rw [if_pos hlevel] at hpar
      obtain rfl := Option.some.inj hpar
      have h := sameLabels_flushNow lzo { s with status := par'.level, bid := 0 }
      unfold callback onImplicitTaskBegin
      dsimp only
      rw [if_pos hlevel]
      split
      · exact ⟨_, congrArg (· ++ _) h.metafile, rfl, h.bid, h.bid⟩
      · exact ⟨_, congrArg (· ++ _) h.metafile, rfl, h.bid, h.bid⟩
    · rw [if_neg hlevel] at hpar
      cases hpar
  | syncRegionBegin kind par' =>
    obtain rfl := Option.some.inj hc
    have h := sameLabels_flushNow lzo s
    exact ⟨_, congrArg (· ++ _) h.metafile, rfl, h.bid, congrArg (· + 1) h.bid⟩
  | _ => cases hc

/-- The level a call leaves in `__sword_status__`. -/
def statusAfter (status : Int) : Callback → Int
  | .parallelBegin _ _ _ _ => status + 1
  | .implicitTaskBegin par _ _ => par.level
  | .implicitTaskEnd => status - 1
  | _ => status

theorem callback_status (c : Callback) :
    (callback lzo hashCombine s c).status = statusAfter s.status c := by
  cases c with
  | access asize atype addr callerpc =>
    unfold callback saveAccess
    dsimp only
    split
    · rfl
    · exact (sameLabels_putItem _).status
  | mutexAcquired kind waitId => exact (sameLabels_putItem _).status
  | mutexReleased kind waitId => exact (sameLabels_putItem _).status
  | parallelBegin parentTask pid threadNum teamSize =>
    unfold callback onParallelBegin
    dsimp only
    split
    · rfl
    · split <;> rfl
  | parallelEnd => rfl
  | implicitTaskBegin par teamSize threadNum =>
    have h := sameLabels_flushNow lzo { s with status := par.level, bid := 0 }
    unfold callback onImplicitTaskBegin
    dsimp only
    split
    · split
      · exact h.status
      · exact h.status
    · rfl
  | implicitTaskEnd => rfl
  | syncRegionBegin kind par => exact (sameLabels_flushNow lzo s).status
  | syncRegionEnd => rfl

end Rtl
end Sword
