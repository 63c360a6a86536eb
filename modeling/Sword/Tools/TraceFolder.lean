import Sword.Rtl.MinilzoRoundTrip
import Sword.Tools.MetafileText
import Sword.Tools.RoundTrip

/-!
# From the runtime to the analyzer, on disk

The runtime leaves a folder: a data file of compressed blocks and a metafile of lines for
every thread.  The launcher reads the metafiles and starts an analysis for every region and
barrier number; an analysis finds the range of each thread in the thread's metafile and
decompresses the data file there.  Here all the parts are the ones of the repository, the
compression included.

* `ThreadLog`, `LeftBy` — the threads of a program and the folder they leave.
* `folder_read_back` — what the analysis of an interval loads for a thread are the items
  that the thread recorded for the line.
-/

namespace Sword
namespace Tools

open Rtl Report Text

/-- A thread of the program: its number and what happens on it. -/
structure ThreadLog where
  tid : Nat
  events : List Event

variable (hashCombine : UInt64 → UInt64 → UInt64)

/-- The thread after its last event, with the dump in flight executed. -/
def ThreadLog.final (t : ThreadLog) : Tls :=
  runDump Minilzo.minilzo (run Minilzo.minilzo hashCombine onThreadBegin t.events)

/-- The files are the metafiles of the threads, among others, in some order. -/
structure LeftBy (threads : List ThreadLog) (files : List TraceFile) : Prop where
  metafiles : (files.filterMap TraceFile.thread?).Perm
    (threads.map fun t => (t.tid, (t.final hashCombine).metafile))
  nodup : (threads.map ThreadLog.tid).Nodup
  legible : ∀ file ∈ files, file.Legible

variable {hashCombine} {threads : List ThreadLog} {files : List TraceFile}

theorem LeftBy.nodup_files (h : LeftBy hashCombine threads files) :
    ((files.filterMap TraceFile.thread?).map Prod.fst).Nodup := by
  have hperm := h.metafiles.map Prod.fst
  rw [List.map_map] at hperm
  exact hperm.nodup_iff.2 h.nodup

/-- **What is recorded is what is analysed.**  For every line of a thread's metafile, the
launcher starts an analysis of the line's region and barrier number; if no later line of the
thread has the same two, this analysis takes the range of the line for the thread, and loading
it from the data file — no read fails and no buffer is overrun — gives the items that the
thread recorded between the line before and this one, in order. -/
theorem folder_read_back (h : LeftBy hashCombine threads files) {t : ThreadLog}
    (ht : t ∈ threads)
    (hi : Intact (run Minilzo.minilzo hashCombine onThreadBegin t.events)) :
    (t.final hashCombine).metafile.length = (t.final hashCombine).hist.segments.length ∧
    ∀ k l segment, (t.final hashCombine).metafile[k]? = some l →
      (t.final hashCombine).hist.segments[k]? = some segment →
      (∃ pregions, pyRegions (files.map TraceFile.onDisk) = some pregions ∧
        ((l.parallelId.toNat : Int), (l.bid : Int)) ∈ pregions) ∧
      (LastLine l.parallelId l.bid (t.final hashCombine).metafile k l →
        ∃ map calls, scanDirectory l.parallelId l.bid (files.map TraceFile.onDisk) = some map ∧
          map t.tid = some ⟨l.fileOffsetBegin, l.fileOffsetEnd⟩ ∧
          loadAndConvertFile Minilzo.minilzo (t.final hashCombine).datafile l.fileOffsetBegin
            l.fileOffsetEnd = .ok ⟨segment, calls, l.fileOffsetEnd - l.fileOffsetBegin⟩) := by
  have hlog := logInv_run hi
  have hmem : (t.tid, (t.final hashCombine).metafile) ∈ files.filterMap TraceFile.thread? :=
    h.metafiles.mem_iff.2 (List.mem_map_of_mem ht)
  refine ⟨hlog.lines.length_eq, fun k l segment hl hsegment => ⟨?_, fun hlast => ?_⟩⟩
  · refine ⟨_, pyRegions_files h.legible, List.mem_map.2 ⟨(l.parallelId, l.bid), ?_, rfl⟩⟩
    exact mem_regions_iff.2 ⟨l, List.mem_flatMap.2 ⟨_, hmem, List.mem_of_getElem? hl⟩, rfl⟩
  · have hcovers : Covers Minilzo.minilzo (t.final hashCombine).datafile l segment := by
      obtain ⟨hk, rfl⟩ := List.getElem?_eq_some_iff.1 hl
      obtain ⟨hk', rfl⟩ := List.getElem?_eq_some_iff.1 hsegment
      exact hlog.lines.get hk hk'
    refine ⟨_, _, scanDirectory_files h.legible h.nodup_files, ?_,
      loadAndConvertFile_covers hcovers⟩
    rw [(lookup_eq_some_iff h.nodup_files).2 hmem]
    exact traces_eq_some_iff.2 ⟨k, l, hlast, rfl⟩

/-! ## A team of two -/

/-- Two accesses, a barrier, another access and another barrier, in a region of two threads. -/
def teamCalls (threadNum : UInt32) : List Callback :=
  let par : ParallelData := ⟨0, 1, 0, 1, 0, 2⟩
  [.implicitTaskBegin par 2 threadNum,
    .access .size4 .unsafeWrite (4096 + 4 * threadNum.toUInt64) 64,
    .access .size4 .unsafeRead 8192 72, .syncRegionBegin .barrier par,
    .access .size4 .unsafeRead 4096 80, .syncRegionBegin .barrier par]

def teamThread (threadNum : UInt32) : ThreadLog :=
  ⟨threadNum.toNat, (teamCalls threadNum).flatMap fun c => [.call c, .background]⟩

def team : List ThreadLog := [teamThread 0, teamThread 1]

/-- The folder it leaves. -/
def teamFolder : List TraceFile :=
  [.metafile 1 ((teamThread 1).final boostHashCombine).metafile, .other ['n', 'o', 't', 'e'] [],
    .metafile 0 ((teamThread 0).final boostHashCombine).metafile]

/-- Each thread writes three lines, the first of them for no items. -/
theorem metafile_team : ∀ t ∈ team, ∃ threadNum, ∃ accesses accesses' : List TraceItem,
    let size := (dumpToFile Minilzo.minilzo accesses 2).length
    let size' := (dumpToFile Minilzo.minilzo accesses' 1).length
    (t.final boostHashCombine).metafile = [⟨1, 0, 0, threadNum, 2, 1, 0, 0⟩,
      ⟨1, 0, 0, threadNum, 2, 1, 0, 0 + size⟩,
      ⟨1, 0, 1, threadNum, 2, 1, 0 + size, 0 + size + size'⟩] := by
  intro t ht
  rcases List.mem_pair.1 ht with rfl | rfl
  · exact ⟨0, _, _, rfl⟩
  · exact ⟨1, _, _, rfl⟩

theorem length_dumpToFile_le (lzo : Lzo) (accesses : List TraceItem) (n : Nat) :
    (dumpToFile lzo accesses n).length ≤ 17 * n + 75 := by
  have hlen : (accesses.take n).length ≤ n := List.length_take_le _ _
  have hcomp := lzo.length_compress_le (encodeItems (accesses.take n))
  rw [length_encodeItems, sizeofTraceItem] at hcomp
  rw [dumpToFile, List.length_append, Bytes.length_leBytes]
  omega

theorem lineFits_team {t : ThreadLog} (ht : t ∈ team) :
    ∀ l ∈ (t.final boostHashCombine).metafile, LineFits l := by
  obtain ⟨threadNum, accesses, accesses', hmeta⟩ := metafile_team t ht
  have hle := length_dumpToFile_le Minilzo.minilzo accesses 2
  have hle' := length_dumpToFile_le Minilzo.minilzo accesses' 1
  intro l hl
  rw [hmeta] at hl
  simp only [List.mem_cons, List.not_mem_nil, or_false] at hl
  rcases hl with rfl | rfl | rfl
  all_goals constructor <;> dsimp only <;> omega

theorem leftBy_team : LeftBy boostHashCombine team teamFolder where
  metafiles := List.Perm.swap _ _ _
  nodup := by decide
  legible := by
    intro file hfile
    simp only [teamFolder, List.mem_cons, List.not_mem_nil, or_false] at hfile
    rcases hfile with rfl | rfl | rfl
    · exact ⟨by decide, lineFits_team (List.mem_cons_of_mem _ (List.mem_singleton_self _))⟩
    · decide
    · exact ⟨by decide, lineFits_team List.mem_cons_self⟩

theorem folder_read_back_team :
    ((teamThread 1).final boostHashCombine).metafile.length =
      ((teamThread 1).final boostHashCombine).hist.segments.length ∧
    ∀ k l segment, ((teamThread 1).final boostHashCombine).metafile[k]? = some l →
      ((teamThread 1).final boostHashCombine).hist.segments[k]? = some segment →
      (∃ pregions, pyRegions (teamFolder.map TraceFile.onDisk) = some pregions ∧
        ((l.parallelId.toNat : Int), (l.bid : Int)) ∈ pregions) ∧
      (LastLine l.parallelId l.bid ((teamThread 1).final boostHashCombine).metafile k l →
        ∃ map calls,
          scanDirectory l.parallelId l.bid (teamFolder.map TraceFile.onDisk) = some map ∧
          map (teamThread 1).tid = some ⟨l.fileOffsetBegin, l.fileOffsetEnd⟩ ∧
          loadAndConvertFile Minilzo.minilzo ((teamThread 1).final boostHashCombine).datafile
            l.fileOffsetBegin l.fileOffsetEnd =
              .ok ⟨segment, calls, l.fileOffsetEnd - l.fileOffsetBegin⟩) :=
  folder_read_back leftBy_team (List.mem_cons_of_mem _ (List.mem_singleton_self _))
    (intact_runNow Minilzo.minilzo boostHashCombine _)

end Tools
end Sword
