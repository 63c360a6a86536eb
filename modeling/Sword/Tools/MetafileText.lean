import Sword.Lib.Text
import Sword.Tools.Regions
import Sword.Tools.Report

/-!
# Metafiles on disk

The runtime writes a line of a metafile with `fprintf`; `main` of
`tools/sword-race-analysis.cc` reads it with `sscanf`, and the launcher,
`tools/sword-offline-analysis.py.in`, with `split` and `int`.  Both take the metafiles out
of a directory in whatever order it lists them, and the analyzer has the thread from the
name of the file.

* `metafileText`, `metafileName` — what the runtime writes.
* `scanMetaLine`, `scanTid`, `scanDirectory` — the analyzer.
* `pyLine`, `pyRegions` — the launcher.
* `LineFits` — the numbers of a line have the widths of the variables they come from.
* `scanMetaLine_metaText`, `pyLine_metaText` — a line is read back by both.
* `scanDirectory_files`, `pyRegions_files`, `traceFolder_spec` — so is a directory: the
  analyzer has the last line of every thread for its region and barrier number, and the
  launcher has every region and barrier number once.
-/

namespace Sword
namespace Tools

open Rtl Report Text

/-! ## Writing -/

/-- The format of a line: `"%lu,%lu,%lu,%u,%u,%d,%lu,%lu\n"`. -/
def lineFormat : List Conv :=
  [.unsigned 64, .unsigned 64, .unsigned 64, .unsigned 32, .unsigned 32, .signed 32, .unsigned 64,
    .unsigned 64]

/-- The numbers of a line. -/
def lineNumbers (l : MetaLine) : List Int :=
  [l.parallelId.toNat, l.parentParallelId.toNat, l.bid, l.offset.toNat, l.span.toNat, l.level,
    l.fileOffsetBegin, l.fileOffsetEnd]

/-- `fprintf(__sword_metafile__, ...)`, without the newline. -/
def metaText (l : MetaLine) : List Char := fields (lineNumbers l)

/-- The text of a metafile. -/
def metafileText (ls : List MetaLine) : List Char := (ls.map metaText).flatMap (· ++ ['\n'])

/-- `"metafile_"` -/
def metafilePrefix : Name := ['m', 'e', 't', 'a', 'f', 'i', 'l', 'e', '_']

/-- The name of a thread's metafile. -/
def metafileName (tid : Nat) : Name := metafilePrefix ++ stdToString tid

/-! ## The analyzer -/

/-- `sscanf(str.c_str(), "%lu,%lu,%lu,%u,%u,%d,%lu,%lu\n", ...)`; `none` where it leaves a
variable without a value. -/
def scanMetaLine (str : List Char) : Option MetaLine :=
  match scanFields lineFormat str with
  | some [pid, ppid, bid, offset, span, level, obegin, oend] =>
    some ⟨UInt64.ofNat pid.toNat, UInt64.ofNat ppid.toNat, bid.toNat, UInt32.ofNat offset.toNat,
      UInt32.ofNat span.toNat, level, obegin.toNat, oend.toNat⟩
  | _ => none

/-- `sscanf(filename, "metafile_%d", &tid)`; the `int` is stored in an `unsigned`. -/
def scanTid (name : Name) : Option Nat :=
  if metafilePrefix <+: name then
    ((Conv.signed 32).scan (name.drop metafilePrefix.length)).map fun r => (r.1 % 2 ^ 32).toNat
  else none

/-- `std::map<unsigned, TraceInfo> traces`. -/
abbrev TraceMap := Nat → Option TraceInfo

/-- One line of the metafile of a thread. -/
def scanInto (pregion : OmptId) (barrierId tid : Nat) (map : TraceMap) (str : List Char) :
    Option TraceMap := do
  let l ← scanMetaLine str
  return if pregion = l.parallelId ∧ barrierId = l.bid then
    Function.update map tid (some ⟨l.fileOffsetBegin, l.fileOffsetEnd⟩) else map

/-- One entry of the directory: its name and what is in it. -/
def scanEntry (pregion : OmptId) (barrierId : Nat) (map : TraceMap) (e : Name × List Char) :
    Option TraceMap :=
  if metafilePrefix <:+: e.1 then do
    let tid ← scanTid e.1
    (lines e.2).foldlM (scanInto pregion barrierId tid) map
  else some map

/-- The loop of `main` over the directory. -/
def scanDirectory (pregion : OmptId) (barrierId : Nat) (entries : List (Name × List Char)) :
    Option TraceMap :=
  entries.foldlM (scanEntry pregion barrierId) fun _ => none

/-! ## The launcher -/

/-- `[t(s) for t,s in zip((int,int,int,int,int,int,int,int),line.split(","))]`: the region and
the barrier number. -/
def pyLine (line : List Char) : Option (Int × Int) :=
  match ((line.splitOn ',').take 8).mapM readInt with
  | some [pid, _, bid, _, _, _, _, _] => some (pid, bid)
  | _ => none

/-- `pregions[pid][bid]`, if it is not there. -/
def pyAdd (pregions : List (Int × Int)) (line : List Char) : Option (List (Int × Int)) := do
  let key ← pyLine line
  return if key ∈ pregions then pregions else pregions ++ [key]

/-- `"metafile"` -/
def metafileWord : Name := ['m', 'e', 't', 'a', 'f', 'i', 'l', 'e']

/-- One entry of the traces folder. -/
def pyEntry (pregions : List (Int × Int)) (e : Name × List Char) : Option (List (Int × Int)) :=
  if metafileWord <:+: e.1 then (lines e.2).foldlM pyAdd pregions else some pregions

/-- `pregions`, from the files of the traces folder. -/
def pyRegions (entries : List (Name × List Char)) : Option (List (Int × Int)) :=
  entries.foldlM pyEntry []

/-! ## Lines -/

/-- The numbers of a line have the widths of the variables they come from. -/
structure LineFits (l : MetaLine) : Prop where
  bid : l.bid < 2 ^ 64
  level : -2 ^ 31 ≤ l.level ∧ l.level < 2 ^ 31
  fileOffsetBegin : l.fileOffsetBegin < 2 ^ 64
  fileOffsetEnd : l.fileOffsetEnd < 2 ^ 64

instance (l : MetaLine) : Decidable (LineFits l) :=
  decidable_of_iff (l.bid < 2 ^ 64 ∧ (-2 ^ 31 ≤ l.level ∧ l.level < 2 ^ 31) ∧
    l.fileOffsetBegin < 2 ^ 64 ∧ l.fileOffsetEnd < 2 ^ 64)
    ⟨fun h => ⟨h.1, h.2.1, h.2.2.1, h.2.2.2⟩,
      fun h => ⟨h.bid, h.level, h.fileOffsetBegin, h.fileOffsetEnd⟩⟩

theorem stdToString_eq (n : Nat) : stdToString n = toText n := by
  rw [toText, if_neg (by omega), Int.natAbs_natCast]
  rfl

theorem holds_unsigned {bits n : Nat} (hbits : bits ≤ 64) (h : n < 2 ^ bits) :
    (Conv.unsigned bits).Holds n :=
  ⟨hbits, by omega, by exact_mod_cast h⟩

theorem LineFits.holds {l : MetaLine} (h : LineFits l) :
    List.Forall₂ Conv.Holds lineFormat (lineNumbers l) := by
  have h64 {n : Nat} (hn : n < 2 ^ 64) : (Conv.unsigned 64).Holds n := holds_unsigned le_rfl hn
  have h32 (n : UInt32) : (Conv.unsigned 32).Holds n.toNat := holds_unsigned (by decide) n.toNat_lt
  exact .cons (h64 l.parallelId.toNat_lt) (.cons (h64 l.parentParallelId.toNat_lt)
    (.cons (h64 h.bid) (.cons (h32 l.offset) (.cons (h32 l.span)
      (.cons ⟨by decide, by decide, h.level.1, h.level.2⟩ (.cons (h64 h.fileOffsetBegin)
        (.cons (h64 h.fileOffsetEnd) .nil)))))))

/-- The analyzer reads a line back. -/
theorem scanMetaLine_metaText {l : MetaLine} (h : LineFits l) :
    scanMetaLine (metaText l) = some l := by
  rw [scanMetaLine, metaText, scanFields_fields h.holds]
  simp [lineNumbers]

/-- The launcher takes the same region and barrier number. -/
theorem pyLine_metaText (l : MetaLine) :
    pyLine (metaText l) = some ((l.parallelId.toNat : Int), (l.bid : Int)) := by
  have hne : lineNumbers l ≠ [] := List.cons_ne_nil _ _
  have hsplit := splitOn_fields hne
  rw [pyLine, metaText, hsplit]
  simp [lineNumbers, readInt_toText]

theorem lines_metafileText (ls : List MetaLine) : lines (metafileText ls) = ls.map metaText := by
  refine lines_flatMap fun line hline => ?_
  obtain ⟨l, -, rfl⟩ := List.mem_map.1 hline
  exact newline_not_mem_fields _

/-- The thread is read back from the name of its file. -/
theorem scanTid_metafileName {tid : Nat} (h : tid < 2 ^ 31) :
    scanTid (metafileName tid) = some tid := by
  have hscan := Conv.scan_toText (c := .signed 32) (i := tid)
    ⟨by decide, by decide, by omega, by exact_mod_cast h⟩ ends_nil
  rw [List.append_nil, ← stdToString_eq] at hscan
  have hmod : ((tid : Int) % 2 ^ 32).toNat = tid := by omega
  rw [scanTid, metafileName, if_pos (List.prefix_append _ _), List.drop_left, hscan,
    Option.map_some, hmod]

/-! ## Files -/

/-- What is in a traces folder: the metafile of a thread, or another file. -/
inductive TraceFile
  | metafile (tid : Nat) (ls : List MetaLine)
  | other (name : Name) (content : List Char)

namespace TraceFile

/-- The file as the directory has it. -/
def onDisk : TraceFile → Name × List Char
  | .metafile tid ls => (metafileName tid, metafileText ls)
  | .other name content => (name, content)

/-- A thread and the lines of its metafile. -/
def thread? : TraceFile → Option (Nat × List MetaLine)
  | .metafile tid ls => some (tid, ls)
  | .other _ _ => none

/-- A file that is read back: the numbers fit, or it is not taken for a metafile. -/
def Legible : TraceFile → Prop
  | .metafile tid ls => tid < 2 ^ 31 ∧ ∀ l ∈ ls, LineFits l
  | .other name _ => ¬ metafileWord <:+: name

instance : (file : TraceFile) → Decidable file.Legible
  | .metafile tid ls => inferInstanceAs (Decidable (tid < 2 ^ 31 ∧ ∀ l ∈ ls, LineFits l))
  | .other name _ => inferInstanceAs (Decidable (¬ metafileWord <:+: name))

end TraceFile

variable {pregion : OmptId} {barrierId : Nat}

/-- A line counts unless a later one does. -/
theorem traces_cons (l : MetaLine) (ls : List MetaLine) :
    traces pregion barrierId (l :: ls) = (traces pregion barrierId ls).or
      (if pregion = l.parallelId ∧ barrierId = l.bid then
        some ⟨l.fileOffsetBegin, l.fileOffsetEnd⟩ else none) := by
  rw [traces_eq, traces_eq, selected]
  cases h : selected pregion barrierId ls with
  | some k =>
    obtain ⟨⟨m, hm, -⟩, -⟩ := selected_eq_some_iff.1 h
    simp [hm]
  | none =>
    by_cases hl : pregion = l.parallelId ∧ barrierId = l.bid <;> simp [hl]

/-- The loop over the lines of one metafile. -/
theorem foldlM_scanInto {ls : List MetaLine} (h : ∀ l ∈ ls, LineFits l) (tid : Nat)
    (map : TraceMap) :
    (ls.map metaText).foldlM (scanInto pregion barrierId tid) map =
      some (Function.update map tid ((traces pregion barrierId ls).or (map tid))) := by
  induction ls generalizing map with
  | nil => simp [traces]
  | cons l ls ih =>
    obtain ⟨hl, hls⟩ := List.forall_mem_cons.1 h
    rw [List.map_cons, List.foldlM_cons, scanInto, scanMetaLine_metaText hl, traces_cons]
    simp only [Option.bind_eq_bind, Option.bind_some, Option.pure_def, ih hls]
    by_cases hmatch : pregion = l.parallelId ∧ barrierId = l.bid
    · simp [hmatch]
    · simp [hmatch]

/-- A metafile of a thread is taken into the map, any other file is passed over. -/
theorem scanEntry_onDisk {file : TraceFile} (h : file.Legible) (map : TraceMap) :
    scanEntry pregion barrierId map file.onDisk = some (match file.thread? with
      | some (tid, ls) => Function.update map tid ((traces pregion barrierId ls).or (map tid))
      | none => map) := by
  cases file with
  | metafile tid ls =>
    obtain ⟨htid, hls⟩ := h
    have hname : metafilePrefix <:+: metafileName tid := (List.prefix_append _ _).isInfix
    rw [TraceFile.onDisk, scanEntry, if_pos hname, scanTid_metafileName htid, lines_metafileText]
    exact foldlM_scanInto hls tid map
  | other name content =>
    have hname : ¬ metafilePrefix <:+: name := fun hin =>
      h (List.IsInfix.trans ⟨[], ['_'], rfl⟩ hin)
    rw [TraceFile.onDisk, scanEntry, if_neg hname]
    rfl

/-- The map after all files, whatever was in it before. -/
theorem foldlM_scanEntry {files : List TraceFile} (h : ∀ file ∈ files, file.Legible)
    (hnodup : ((files.filterMap TraceFile.thread?).map Prod.fst).Nodup) (map : TraceMap) :
    (files.map TraceFile.onDisk).foldlM (scanEntry pregion barrierId) map = some fun tid =>
      (((files.filterMap TraceFile.thread?).lookup tid).bind (traces pregion barrierId)).or
        (map tid) := by
  induction files generalizing map with
  | nil => simp
  | cons file files ih =>
    obtain ⟨hfile, hfiles⟩ := List.forall_mem_cons.1 h
    rw [List.map_cons, List.foldlM_cons, scanEntry_onDisk hfile, Option.bind_eq_bind,
      Option.bind_some]
    cases hthread : file.thread? with
    | none =>
      rw [List.filterMap_cons_none hthread] at hnodup ⊢
      exact ih hfiles hnodup map
    | some thread =>
      obtain ⟨tid, ls⟩ := thread
      rw [List.filterMap_cons_some hthread] at hnodup ⊢
      obtain ⟨hnot, hnodup⟩ := List.nodup_cons.1 hnodup
      rw [ih hfiles hnodup]
      refine congrArg some (funext fun t => ?_)
      by_cases ht : t = tid
      · -- no later file is one of this thread
        subst ht
        have hnone : (files.filterMap TraceFile.thread?).lookup t = none := by
          rw [List.lookup_eq_none_iff]
          intro thread hmem
          have hmem' : thread.1 ∈ (files.filterMap TraceFile.thread?).map Prod.fst :=
            List.mem_map_of_mem hmem
          exact bne_iff_ne.2 fun heq => hnot (heq ▸ hmem')
        simp [hnone]
      · have hlookup : List.lookup t ((tid, ls) :: files.filterMap TraceFile.thread?) =
            List.lookup t (files.filterMap TraceFile.thread?) := by
          rw [List.lookup_cons, beq_false_of_ne ht]
        simp only [hlookup, Function.update_of_ne ht]

/-- **The analyzer's map** has, for every thread with a metafile in the directory, the range
of the thread's last line with the region and the barrier number, and nothing else. -/
theorem scanDirectory_files {files : List TraceFile} (h : ∀ file ∈ files, file.Legible)
    (hnodup : ((files.filterMap TraceFile.thread?).map Prod.fst).Nodup) :
    scanDirectory pregion barrierId (files.map TraceFile.onDisk) = some fun tid =>
      ((files.filterMap TraceFile.thread?).lookup tid).bind (traces pregion barrierId) := by
  rw [scanDirectory, foldlM_scanEntry h hnodup]
  simp

/-! ### The launcher -/

/-- An interval as the launcher has it. -/
def asInts (interval : Interval) : Int × Int := (interval.1.toNat, interval.2)

theorem asInts_injective : Function.Injective asInts := by
  rintro ⟨p, b⟩ ⟨q, c⟩ h
  obtain ⟨hp, hb⟩ := Prod.mk.inj h
  exact Prod.ext (UInt64.toNat_inj.1 (Int.ofNat.inj hp)) (Int.ofNat.inj hb)

theorem foldlM_pyAdd (ls : List MetaLine) (pregions : List Interval) :
    (ls.map metaText).foldlM pyAdd (pregions.map asInts) =
      some ((ls.foldl addRegion pregions).map asInts) := by
  induction ls generalizing pregions with
  | nil => rfl
  | cons l ls ih =>
    have hone : pyAdd (pregions.map asInts) (metaText l) =
        some ((addRegion pregions l).map asInts) := by
      have hkey : ((l.parallelId.toNat : Int), (l.bid : Int)) = asInts (l.parallelId, l.bid) := rfl
      rw [pyAdd, pyLine_metaText, hkey, addRegion]
      simp only [Option.bind_eq_bind, Option.bind_some, Option.pure_def,
        List.mem_map_of_injective asInts_injective]
      split
      · rfl
      · rw [List.map_append]
        rfl
    rw [List.map_cons, List.foldlM_cons, hone, List.foldl_cons]
    exact ih _

/-- **The launcher's dictionary** has every region and barrier number of the metafiles once. -/
theorem pyRegions_files {files : List TraceFile} (h : ∀ file ∈ files, file.Legible) :
    pyRegions (files.map TraceFile.onDisk) =
      some ((regions ((files.filterMap TraceFile.thread?).flatMap Prod.snd)).map asInts) := by
  have hall : ∀ pregions : List Interval,
      (files.map TraceFile.onDisk).foldlM pyEntry (pregions.map asInts) =
        some ((((files.filterMap TraceFile.thread?).flatMap Prod.snd).foldl addRegion
          pregions).map asInts) := by
    induction files with
    | nil => exact fun pregions => rfl
    | cons file files ih =>
      intro pregions
      obtain ⟨hfile, hfiles⟩ := List.forall_mem_cons.1 h
      rw [List.map_cons, List.foldlM_cons]
      cases file with
      | metafile tid ls =>
        have hname : metafileWord <:+: metafileName tid := ⟨[], '_' :: stdToString tid, rfl⟩
        have hone : pyEntry (pregions.map asInts) (TraceFile.onDisk (.metafile tid ls)) =
            some ((ls.foldl addRegion pregions).map asInts) := by
          rw [TraceFile.onDisk, pyEntry, if_pos hname, lines_metafileText, foldlM_pyAdd]
        have hthreads : (TraceFile.metafile tid ls :: files).filterMap TraceFile.thread? =
            (tid, ls) :: files.filterMap TraceFile.thread? := rfl
        rw [hone, hthreads, List.flatMap_cons, List.foldl_append]
        exact ih hfiles _
      | other name content =>
        have hone : pyEntry (pregions.map asInts) (TraceFile.onDisk (.other name content)) =
            some (pregions.map asInts) := by
          rw [TraceFile.onDisk, pyEntry, if_neg hfile]
        rw [hone]
        exact ih hfiles pregions
  exact hall []

theorem nodup_regions (ls : List MetaLine) : (regions ls).Nodup := by
  have hadd {pregions : List Interval} (h : pregions.Nodup) (l : MetaLine) :
      (addRegion pregions l).Nodup := by
    rw [addRegion]
    split
    · exact h
    · next hnot => exact List.nodup_append_comm.1 (List.nodup_cons.2 ⟨hnot, h⟩)
  have hfold : ∀ (ls : List MetaLine) (pregions : List Interval), pregions.Nodup →
      (ls.foldl addRegion pregions).Nodup := by
    intro ls
    induction ls with
    | nil => exact fun _ h => h
    | cons l ls ih => exact fun _ h => ih _ (hadd h l)
  exact hfold ls [] List.nodup_nil

/-! ## The folder -/

/-- Line `k` is of the region and the barrier number, and no later one is. -/
structure LastLine (pregion : OmptId) (barrierId : Nat) (ls : List MetaLine) (k : Nat)
    (l : MetaLine) : Prop where
  line : ls[k]? = some l
  parallelId : l.parallelId = pregion
  bid : l.bid = barrierId
  last : ∀ j l', k < j → ls[j]? = some l' → l'.parallelId = pregion → l'.bid ≠ barrierId

/-- The range that is stored is the one of the last line. -/
theorem traces_eq_some_iff {ls : List MetaLine} {info : TraceInfo} :
    traces pregion barrierId ls = some info ↔
      ∃ k l, LastLine pregion barrierId ls k l ∧
        info = ⟨l.fileOffsetBegin, l.fileOffsetEnd⟩ := by
  rw [traces_eq, Option.bind_eq_some_iff]
  constructor
  · rintro ⟨k, hk, hinfo⟩
    obtain ⟨⟨l, hl, hpid, hbid⟩, hlast⟩ := selected_eq_some_iff.1 hk
    rw [hl] at hinfo
    exact ⟨k, l, ⟨hl, hpid, hbid, hlast⟩, (Option.some.inj hinfo).symm⟩
  · rintro ⟨k, l, h, rfl⟩
    exact ⟨k, selected_eq_some_iff.2 ⟨⟨l, h.line, h.parallelId, h.bid⟩, h.last⟩,
      by rw [h.line]; rfl⟩

theorem mem_threads_iff {files : List TraceFile} {tid : Nat} {ls : List MetaLine} :
    (tid, ls) ∈ files.filterMap TraceFile.thread? ↔ .metafile tid ls ∈ files := by
  rw [List.mem_filterMap]
  constructor
  · rintro ⟨file, hmem, hthread⟩
    cases file with
    | metafile tid' ls' =>
      cases hthread
      exact hmem
    | other name content => cases hthread
  · exact fun hmem => ⟨_, hmem, rfl⟩

/-- What a key of an association list stands for. -/
theorem lookup_eq_some_iff {α : Type} {threads : List (Nat × α)}
    (hnodup : (threads.map Prod.fst).Nodup) {tid : Nat} {a : α} :
    threads.lookup tid = some a ↔ (tid, a) ∈ threads := by
  induction threads with
  | nil => simp
  | cons thread threads ih =>
    obtain ⟨tid', a'⟩ := thread
    obtain ⟨hnot, hnodup⟩ := List.nodup_cons.1 hnodup
    by_cases ht : tid = tid'
    · subst ht
      have hnone (a : α) : (tid, a) ∉ threads := fun hmem =>
        hnot (List.mem_map.2 ⟨(tid, a), hmem, rfl⟩)
      simp [hnone, eq_comm]
    · rw [List.lookup_cons, beq_false_of_ne ht]
      simp [ih hnodup, ht]

/-- **A folder of metafiles**, listed in any order and with other files in it: the launcher
starts the analysis of every region and barrier number of a line once, and the analyzer takes,
for every thread, the range of the thread's last line with the two it is started for. -/
theorem traceFolder_spec {files : List TraceFile} (h : ∀ file ∈ files, file.Legible)
    (hnodup : ((files.filterMap TraceFile.thread?).map Prod.fst).Nodup) :
    (∃ pregions, pyRegions (files.map TraceFile.onDisk) = some pregions ∧ pregions.Nodup ∧
      ∀ key, key ∈ pregions ↔ ∃ tid ls, .metafile tid ls ∈ files ∧
        ∃ l ∈ ls, key = ((l.parallelId.toNat : Int), (l.bid : Int))) ∧
    ∀ pregion barrierId, ∃ map,
      scanDirectory pregion barrierId (files.map TraceFile.onDisk) = some map ∧
      ∀ tid info, map tid = some info ↔ ∃ ls, .metafile tid ls ∈ files ∧
        ∃ k l, LastLine pregion barrierId ls k l ∧
          info = ⟨l.fileOffsetBegin, l.fileOffsetEnd⟩ := by
  constructor
  · refine ⟨_, pyRegions_files h, (nodup_regions _).map asInts_injective, fun key => ?_⟩
    simp only [List.mem_map, mem_regions_iff, List.mem_flatMap, Prod.exists, mem_threads_iff]
    constructor
    · rintro ⟨p, b, ⟨l, ⟨tid, ls, hfile, hl⟩, hkey⟩, rfl⟩
      exact ⟨tid, ls, hfile, l, hl, congrArg asInts hkey⟩
    · rintro ⟨tid, ls, hfile, l, hl, rfl⟩
      exact ⟨l.parallelId, l.bid, ⟨l, ⟨tid, ls, hfile, hl⟩, rfl⟩, rfl⟩
  · intro pregion barrierId
    refine ⟨_, scanDirectory_files h hnodup, fun tid info => ?_⟩
    simp only [Option.bind_eq_some_iff, lookup_eq_some_iff hnodup, mem_threads_iff,
      traces_eq_some_iff]

/-- Two threads that have been in a region of two barrier intervals, and another file. -/
def twoThreads : List TraceFile :=
  [.metafile 1 [⟨7, 0, 0, 1, 2, 1, 0, 24⟩], .other ['n', 'o', 't', 'e'] ['7'],
    .metafile 0 [⟨7, 0, 0, 0, 2, 1, 0, 24⟩, ⟨7, 0, 1, 0, 2, 1, 24, 64⟩]]

theorem traceFolder_spec_twoThreads :
    (∃ pregions, pyRegions (twoThreads.map TraceFile.onDisk) = some pregions ∧ pregions.Nodup ∧
      ∀ key, key ∈ pregions ↔ ∃ tid ls, .metafile tid ls ∈ twoThreads ∧
        ∃ l ∈ ls, key = ((l.parallelId.toNat : Int), (l.bid : Int))) ∧
    ∀ pregion barrierId, ∃ map,
      scanDirectory pregion barrierId (twoThreads.map TraceFile.onDisk) = some map ∧
      ∀ tid info, map tid = some info ↔ ∃ ls, .metafile tid ls ∈ twoThreads ∧
        ∃ k l, LastLine pregion barrierId ls k l ∧
          info = ⟨l.fileOffsetBegin, l.fileOffsetEnd⟩ := by
  exact traceFolder_spec (by decide) (by decide)

end Tools
end Sword
