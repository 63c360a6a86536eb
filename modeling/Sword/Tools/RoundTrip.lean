import Sword.Rtl.Metafile
import Sword.Tools.Loader

/-!
# The round trip through a thread's files

The writer of `rtl/sword_rtl.cc` and the reader of
`tools/sword-race-analysis.cc` frame the blocks of a data file differently, and
agree on the items all the same.

* `blockOk_of_mem_cut` — the blocks a segment is cut into are ones the reader can
  take.
* `loadAndConvertFile_covers` — the reader on the range of a line.
* `trace_round_trip` — for every history, the lines of the metafile tile the data
  file, and the reader finds in the range of every line the items that were put
  into the buffer for it.
-/

namespace Sword
namespace Tools

open Rtl Blocks

variable {lzo : Lzo} {hashCombine : UInt64 → UInt64 → UInt64}

theorem blockOk_of_mem_cut {segment b : List TraceItem} (hb : b ∈ cut numOfAccesses segment) :
    BlockOk b :=
  ⟨ne_nil_of_mem_cut numOfAccesses_pos hb, length_le_of_mem_cut numOfAccesses_pos hb⟩

/-- The reader on a range that holds the blocks of a segment. -/
theorem loadAndConvertFile_cut (lzo : Lzo) (segment : List TraceItem) (pre tail : List UInt8) :
    loadAndConvertFile lzo
        (pre ++ ((cut numOfAccesses segment).flatMap (frame lzo) ++ tail)) pre.length
        (pre.length + ((cut numOfAccesses segment).flatMap (frame lzo)).length) =
      .ok ⟨segment, (cut numOfAccesses segment).flatMap (replay ∅),
        ((cut numOfAccesses segment).flatMap (frame lzo)).length⟩ := by
  rw [loadAndConvertFile_frames (fun b hb => blockOk_of_mem_cut hb), flatten_cut]

/-- The reader on the range of a metafile line. -/
theorem loadAndConvertFile_covers {datafile : List UInt8} {l : MetaLine}
    {segment : List TraceItem} (h : Covers lzo datafile l segment) :
    loadAndConvertFile lzo datafile l.fileOffsetBegin l.fileOffsetEnd =
      .ok ⟨segment, (cut numOfAccesses segment).flatMap (replay ∅),
        l.fileOffsetEnd - l.fileOffsetBegin⟩ := by
  obtain ⟨pre, tail, rfl, hb, he⟩ := h
  rw [hb, he, loadAndConvertFile_cut, Nat.add_sub_cancel_left]

/-- **The round trip.**  For every history whose dumps write what the buffer held
when they were posted, once the dump in flight is executed: the ranges of the
metafile lines follow one another from the start of the data file, what lies
beyond them are full blocks of the segment that is still open, and for every line
the reader succeeds — no read fails and no buffer is overrun —, decodes the items
put into the buffer between the previous line and this one, in order, and reads
exactly the range of the line. -/
theorem trace_round_trip (lzo : Lzo) (hashCombine : UInt64 → UInt64 → UInt64)
    (evs : List Event) (hi : Intact (run lzo hashCombine onThreadBegin evs)) :
    let s := runDump lzo (run lzo hashCombine onThreadBegin evs)
    Tiles 0 s.metafile s.fileOffsetBegin ∧
      s.datafile.drop s.fileOffsetBegin =
        (fillAll numOfAccesses s.hist.segment).1.flatMap (frame lzo) ∧
      List.Forall₂ (fun l segment => ∃ calls,
        loadAndConvertFile lzo s.datafile l.fileOffsetBegin l.fileOffsetEnd =
          .ok ⟨segment, calls, l.fileOffsetEnd - l.fileOffsetBegin⟩)
        s.metafile s.hist.segments := by
  have h := logInv_run hi
  obtain ⟨pre, hpre, hdata⟩ := h.openRange
  refine ⟨h.tiles, ?_, h.lines.imp fun l segment hc => ⟨_, loadAndConvertFile_covers hc⟩⟩
  rw [hdata, ← hpre, List.drop_left]

/-- A thread that enters a critical section and reaches a barrier. -/
def lockThenBarrier : List Event :=
  [.mutexAcquired 0 7, .syncRegionBegin .barrier default].flatMap
    fun c => [.call c, .background]

theorem trace_round_trip_lockThenBarrier :
    let s := runDump Lzo.stored (run Lzo.stored boostHashCombine onThreadBegin lockThenBarrier)
    Tiles 0 s.metafile s.fileOffsetBegin ∧
      s.datafile.drop s.fileOffsetBegin =
        (fillAll numOfAccesses s.hist.segment).1.flatMap (frame Lzo.stored) ∧
      List.Forall₂ (fun l segment => ∃ calls,
        loadAndConvertFile Lzo.stored s.datafile l.fileOffsetBegin l.fileOffsetEnd =
          .ok ⟨segment, calls, l.fileOffsetEnd - l.fileOffsetBegin⟩) s.metafile s.hist.segments :=
  trace_round_trip Lzo.stored boostHashCombine lockThenBarrier
    (intact_runNow Lzo.stored boostHashCombine _)

end Tools
end Sword
