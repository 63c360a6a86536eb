import Sword.Lib.FirstSeen
import Sword.Rtl.Thread
import Sword.Tools.IntervalTree

/-!
# From the races found to the races printed

Three programs work on one folder.  The launcher, `sword-offline-analysis`, starts an
analysis for every interval in the metafiles; an analysis saves the races it has found, as
`sword-race-analysis` does at its end; `sword-print-report` reads the folder and prints every
pair of program counters once.  The file an analysis writes is named by its region alone.

* `reportRace`, `saveReport`, `analyze` — `ReportRace`, `SaveReport` and the end of an
  analysis.
* `regions`, `launch` — the launcher.
* `printReport` — `PrintReport`.
* `LastRacy` — the analyses whose races are in the folder at the end.
* `printsUnion_iff` — when every race found is printed, each pair once.
-/

namespace Sword
namespace Tools
namespace Report

open Rtl FirstSeen

/-! ## The races of an analysis -/

/-- `struct RaceInfo`. -/
structure RaceInfo where
  address : UInt64
  rw1 : UInt8
  size1 : UInt8
  pc1 : UInt64
  rw2 : UInt8
  size2 : UInt8
  pc2 : UInt64
  deriving DecidableEq, Repr

/-- `RaceInfo()`. -/
def RaceInfo.default : RaceInfo := ⟨0, 0, 0, 0, 0, 0, 0⟩

/-- The pair of program counters, in no order. -/
def RaceInfo.pcs (race : RaceInfo) : Sym2 UInt64 := s(race.pc1, race.pc2)

/-- `hash_races` and `races`. -/
abbrev Races := Finset UInt64 × List RaceInfo

/-- A pair that the analysis has found to race. -/
abbrev Found := IntervalTreeNode × IntervalTreeNode

/-- The program counters reported for a pair, in no order. -/
def foundPcs (pair : Found) : Sym2 UInt64 := s(pair.1.pc - 1, pair.2.pc - 1)

section Hash

variable (combine : UInt64 → UInt64 → UInt64)

/-- Two calls of `boost::hash_combine` on a hash of 0. -/
def pairHash (pc1 pc2 : UInt64) : UInt64 := combine (combine 0 pc1) pc2

/-- `ReportRace`. -/
def reportRace (s : Races) (address : UInt64) (rw1 rw2 size1 size2 : UInt8) (pc1 pc2 : UInt64) :
    Races :=
  let hash1 := pairHash combine pc1 pc2
  let hash2 := pairHash combine pc2 pc1
  let reported := hash1 ∈ s.1 ∨ hash2 ∈ s.1
  if ¬ reported then
    (insert hash2 (insert hash1 s.1), s.2 ++ [⟨address, rw1, size1, pc1, rw2, size2, pc2⟩])
  else s

/-- The call of `ReportRace` for a pair of `rep_races`. -/
def reportPair (s : Races) (pair : Found) : Races :=
  let (i, j) := pair
  reportRace combine s i.start (i.sizeType &&& 0x0F) (j.sizeType &&& 0x0F) (i.sizeType >>> 4)
    (j.sizeType >>> 4) (i.pc - 1) (j.pc - 1)

/-- `races`, after the loop over `rep_races`. -/
def racesOf (repRaces : List Found) : List RaceInfo :=
  (repRaces.foldl (reportPair combine) (∅, [])).2

end Hash

/-! ## The report folder -/

/-- The name of a file. -/
abbrev Name := List Char

/-- What a name in the report folder stands for.  A report is the number of its records and
the records; they are written and read as the memory they are. -/
inductive Entry
  | report (size : ℕ) (records : List RaceInfo)
  | directory (files : Finset Name)
  deriving DecidableEq

/-- The report folder. -/
abbrev Folder := List (Name × Entry)

/-- A file is opened for writing: what it held is lost. -/
def Folder.write (folder : Folder) (name : Name) (entry : Entry) : Folder :=
  folder.filter (fun e => e.1 ≠ name) ++ [(name, entry)]

/-- `std::to_string`. -/
def stdToString (n : ℕ) : Name := Nat.toDigits 10 n

/-- `"overhead"` -/
def overhead : Name := ['o', 'v', 'e', 'r', 'h', 'e', 'a', 'd']

/-- `"time_cluster"` -/
def timeCluster : Name := ['t', 'i', 'm', 'e', '_', 'c', 'l', 'u', 's', 't', 'e', 'r']

/-- `"race_report_"` -/
def raceReport : Name := ['r', 'a', 'c', 'e', '_', 'r', 'e', 'p', 'o', 'r', 't', '_']

/-- The name of the file the races of a region are saved in. -/
def reportName (pregion : OmptId) : Name := raceReport ++ stdToString pregion.toNat

/-- `SaveReport`. -/
def saveReport (filename : Name) (races : List RaceInfo) (folder : Folder) : Folder :=
  folder.write filename (.report races.length races)

/-! ## An analysis -/

/-- A region and a barrier identifier. -/
abbrev Interval := OmptId × ℕ

section Launch

variable (combine : UInt64 → UInt64 → UInt64) (lines : List MetaLine)
  (finds : OmptId → ℕ → List Found)

/-- `rep_races`: the pairs found in the traces of the interval, if a metafile has any. -/
def repRaces (pregion : OmptId) (barrierId : ℕ) : List Found :=
  if ∃ line ∈ lines, pregion = line.parallelId ∧ barrierId = line.bid then finds pregion barrierId
  else []

/-- `sword-race-analysis` for an interval, from the races it has found on. -/
def analyze (pregion : OmptId) (barrierId : ℕ) (folder : Folder) : Folder :=
  let races := racesOf combine (repRaces lines finds pregion barrierId)
  if 0 < races.length then saveReport (reportName pregion) races folder else folder

/-! ## The launcher -/

/-- One line of a metafile goes into `pregions`. -/
def addRegion (pregions : List Interval) (line : MetaLine) : List Interval :=
  if (line.parallelId, line.bid) ∈ pregions then pregions
  else pregions ++ [(line.parallelId, line.bid)]

/-- `pregions`: the intervals of all metafiles. -/
def regions : List Interval := lines.foldl addRegion []

/-- Without and with `--cluster-run`. -/
inductive Mode
  | localRun | clusterRun
  deriving DecidableEq, Repr

/-- `mkdir_p(args.report_path + "/overhead")`. -/
def mkdirOverhead (folder : Folder) : Folder :=
  if ∃ e ∈ folder, e.1 = overhead then folder else folder ++ [(overhead, .directory ∅)]

/-- `os.path.exists("%s/overhead/%s.dat" % (args.report_path, key))`. -/
def overheadExists (key : OmptId) (folder : Folder) : Bool :=
  folder.any fun e => e.1 = overhead &&
    match e.2 with
    | .directory files => stdToString key.toNat ++ ['.', 'd', 'a', 't'] ∈ files
    | .report _ _ => false

/-- The analysis started for an interval.  A job on the cluster gets no `--bid`, and
`barrier_id` is 0. -/
def launchOne (mode : Mode) (folder : Folder) (interval : Interval) : Folder :=
  match mode with
  | .clusterRun => analyze combine lines finds interval.1 0 folder
  | .localRun =>
    if overheadExists interval.1 folder then folder
    else analyze combine lines finds interval.1 interval.2 folder

/-- An order of the intervals of all metafiles. -/
abbrev LaunchOrder : Type := { order : List Interval // order.Perm (regions lines) }

/-- The launcher, on an empty report folder: its analyses in this order. -/
def launch (mode : Mode) (order : LaunchOrder lines) : Folder :=
  order.1.foldl (launchOne combine lines finds mode) (mkdirOverhead [])

end Launch

/-! ## Printing -/

/-- The path of an entry of a folder. -/
def joinPath (dir name : Name) : Name :=
  if dir = [] ∨ dir.getLast? = some '/' then dir ++ name else dir ++ '/' :: name

/-- The path is one that `PrintReport` does not look at. -/
def Skipped (path : Name) : Prop := overhead <:+: path ∨ timeCluster <:+: path

instance (path : Name) : Decidable (Skipped path) := inferInstanceAs (Decidable (_ ∨ _))

/-- One turn of the loop over the directory.  The size of a directory is an error. -/
def readEntry (dir : Name) (races : List RaceInfo) (e : Name × Entry) : Option (List RaceInfo) :=
  if Skipped (joinPath dir e.1) then some races
  else
    match e.2 with
    | .directory _ => none
    | .report size records =>
      let filesize := 8 + 40 * records.length
      if 0 < filesize then
        some (races ++ (records ++ .replicate size RaceInfo.default).take size)
      else some races

/-- The hash of a race, the smaller program counter first. -/
def raceHash (combine : UInt64 → UInt64 → UInt64) (race : RaceInfo) : UInt64 :=
  if race.pc1 < race.pc2 then pairHash combine race.pc1 race.pc2
  else pairHash combine race.pc2 race.pc1

/-- One turn of the loop over `races`: the hashes seen, and the races printed. -/
def printRace (combine : UInt64 → UInt64 → UInt64) (s : Races) (race : RaceInfo) : Races :=
  let hash := raceHash combine race
  if hash ∈ s.1 then s else (insert hash s.1, s.2 ++ [race])

/-- `PrintReport`: the races it prints, of a folder whose entries come in this order. -/
def printReport (combine : UInt64 → UInt64 → UInt64) (dir : Name) (entries : List (Name × Entry)) :
    Option (List RaceInfo) := do
  let races ← entries.foldlM (readEntry dir) []
  some (races.foldl (printRace combine) (∅, [])).2

/-! ## Paths -/

theorem infix_append_cons {word a b : Name} {c : Char} (hc : c ∉ word)
    (h : word <:+: a ++ c :: b) : word <:+: a ∨ word <:+: b := by
  rcases List.infix_append_iff_ne_nil.1 h with h | h | ⟨w1, w2, -, hne, rfl, -, hprefix⟩
  · exact Or.inl h
  · rcases List.infix_cons_iff.1 h with hprefix | h
    · rcases List.prefix_cons_iff.1 hprefix with rfl | ⟨t, rfl, -⟩
      · exact Or.inl List.nil_infix
      · exact absurd List.mem_cons_self hc
    · exact Or.inr h
  · rcases List.prefix_cons_iff.1 hprefix with rfl | ⟨t, rfl, -⟩
    · exact absurd rfl hne
    · exact absurd (List.mem_append_right _ List.mem_cons_self) hc

/-- A word that is not in the name is in the path exactly if it is in the folder's. -/
theorem infix_joinPath_iff {word dir name : Name} (hslash : '/' ∉ word)
    (hname : ¬ word <:+: name) : word <:+: joinPath dir name ↔ word <:+: dir := by
  rw [joinPath]
  by_cases hnil : dir = []
  · rw [if_pos (Or.inl hnil), hnil, List.nil_append, List.infix_nil]
    refine iff_of_false hname ?_
    rintro rfl
    exact hname List.nil_infix
  by_cases hlast : dir.getLast? = some '/'
  · obtain ⟨d, hd⟩ : ∃ d, dir = d ++ ['/'] :=
      ⟨dir.dropLast, (List.dropLast_append_getLast? '/' hlast).symm⟩
    rw [if_pos (Or.inr hlast)]
    refine ⟨fun h => ?_, List.infix_append_of_infix_left⟩
    rw [hd, List.append_assoc, List.singleton_append] at h
    rw [hd]
    rcases infix_append_cons hslash h with h | h
    · exact List.infix_append_of_infix_left h
    · exact absurd h hname
  · rw [if_neg (not_or.2 ⟨hnil, hlast⟩)]
    refine ⟨fun h => ?_, List.infix_append_of_infix_left⟩
    exact (infix_append_cons hslash h).resolve_right hname

/-- A character that neither `race_report_` nor a number has. -/
theorem not_mem_reportName {c : Char} (hc : c ∉ raceReport) (hdigit : c.isDigit = false)
    (pregion : OmptId) : c ∉ reportName pregion := by
  intro h
  rcases List.mem_append.1 h with h | h
  · exact hc h
  · have hd := Nat.isDigit_of_mem_toDigits (by decide) (by decide) h
    rw [hdigit] at hd
    cases hd

/-- The reports are skipped only if the whole folder is. -/
theorem skipped_reportName_iff (dir : Name) (pregion : OmptId) :
    Skipped (joinPath dir (reportName pregion)) ↔ Skipped dir := by
  have hname : ∀ {word : Name} {c : Char}, c ∈ word → c ∉ raceReport → c.isDigit = false →
      ¬ word <:+: reportName pregion := by
    intro word c hmem hc hdigit h
    exact not_mem_reportName hc hdigit pregion (h.subset hmem)
  rw [Skipped, Skipped, infix_joinPath_iff (by decide) (@hname overhead 'h' (by decide) (by decide)
    (by decide)), infix_joinPath_iff (by decide) (@hname timeCluster 'l' (by decide) (by decide)
    (by decide))]

theorem skipped_overhead (dir : Name) : Skipped (joinPath dir overhead) := by
  left
  rw [joinPath]
  split
  · exact List.infix_append_right
  · exact List.infix_append_of_infix_right (List.infix_cons (List.infix_refl _))

/-- Regions have different reports. -/
theorem reportName_inj {p q : OmptId} (h : reportName p = reportName q) : p = q := by
  have hdigits := List.append_cancel_left h
  have hnat := congrArg (fun ds => Nat.ofDigitChars 10 ds 0) hdigits
  simp only [stdToString, Nat.ofDigitChars_ten_toDigits] at hnat
  exact UInt64.toNat_inj.1 hnat

theorem reportName_ne_overhead (p : OmptId) : reportName p ≠ overhead := by
  intro h
  have hmem : 'h' ∈ reportName p := h ▸ (by decide : 'h' ∈ overhead)
  exact not_mem_reportName (by decide) (by decide) p hmem

/-! ## Equal pairs and equal hashes -/

/-- The record `ReportRace` makes for a pair. -/
def raceInfo (pair : Found) : RaceInfo :=
  ⟨pair.1.start, pair.1.sizeType &&& 0x0F, pair.1.sizeType >>> 4, pair.1.pc - 1,
    pair.2.sizeType &&& 0x0F, pair.2.sizeType >>> 4, pair.2.pc - 1⟩

section Hash

variable {combine : UInt64 → UInt64 → UInt64}

/-- `boost::hash_combine` does not collide on these program counters. -/
def NoCollision (combine : UInt64 → UInt64 → UInt64) (pcs : Set UInt64) : Prop :=
  ∀ p ∈ pcs, ∀ q ∈ pcs, ∀ p' ∈ pcs, ∀ q' ∈ pcs,
    pairHash combine p q = pairHash combine p' q' → p = p' ∧ q = q'

/-- The races are between these program counters. -/
def Within (pcs : Set UInt64) (races : List RaceInfo) : Prop :=
  ∀ race ∈ races, race.pc1 ∈ pcs ∧ race.pc2 ∈ pcs

/-- The hashes `ReportRace` looks for, and inserts. -/
def bothHashes (combine : UInt64 → UInt64 → UInt64) (race : RaceInfo) : Finset UInt64 :=
  {pairHash combine race.pc1 race.pc2, pairHash combine race.pc2 race.pc1}

theorem reportPair_eq (s : Races) (pair : Found) :
    reportPair combine s pair = keepStep (bothHashes combine) s (raceInfo pair) := by
  obtain ⟨i, j⟩ := pair
  have hdisjoint : Disjoint (bothHashes combine (raceInfo (i, j))) s.1 ↔
      ¬ (pairHash combine (i.pc - 1) (j.pc - 1) ∈ s.1 ∨
        pairHash combine (j.pc - 1) (i.pc - 1) ∈ s.1) := by
    simp [bothHashes, raceInfo, Finset.disjoint_left]
  rw [reportPair, reportRace, keepStep]
  simp only [hdisjoint]
  split
  · refine Prod.ext ?_ rfl
    ext h
    simp only [bothHashes, raceInfo, Finset.mem_insert, Finset.mem_union, Finset.mem_singleton]
    tauto
  · rfl

theorem racesOf_eq (repRaces : List Found) :
    racesOf combine repRaces = keepNew (bothHashes combine) (repRaces.map raceInfo) := by
  rw [racesOf, keepNew, List.foldl_map]
  congr 2
  funext s pair
  exact reportPair_eq s pair

theorem printRace_eq (s : Races) (race : RaceInfo) :
    printRace combine s race = keepStep (fun race => {raceHash combine race}) s race := by
  rw [printRace, keepStep]
  by_cases hmem : raceHash combine race ∈ s.1
  · rw [if_pos hmem, if_neg fun h => Finset.disjoint_singleton_left.1 h hmem]
  · rw [if_neg hmem, if_pos (Finset.disjoint_singleton_left.2 hmem)]
    refine Prod.ext ?_ rfl
    rw [Finset.union_comm]
    rfl

variable {pcs : Set UInt64} {races : List RaceInfo}

/-- Two races share a hash exactly if they have the same pair. -/
theorem classified_bothHashes (hhash : NoCollision combine pcs) (hin : Within pcs races) :
    Classified (bothHashes combine) RaceInfo.pcs races := by
  intro a ha b hb
  obtain ⟨ha1, ha2⟩ := hin a ha
  obtain ⟨hb1, hb2⟩ := hin b hb
  rw [Finset.not_disjoint_iff, RaceInfo.pcs, RaceInfo.pcs, Sym2.eq_iff]
  simp only [bothHashes, Finset.mem_insert, Finset.mem_singleton]
  constructor
  · rintro ⟨h, rfl | rfl, heq | heq⟩
    · exact Or.inl (hhash _ ha1 _ ha2 _ hb1 _ hb2 heq)
    · exact Or.inr (hhash _ ha1 _ ha2 _ hb2 _ hb1 heq)
    · obtain ⟨h1, h2⟩ := hhash _ ha2 _ ha1 _ hb1 _ hb2 heq
      exact Or.inr ⟨h2, h1⟩
    · obtain ⟨h1, h2⟩ := hhash _ ha2 _ ha1 _ hb2 _ hb1 heq
      exact Or.inl ⟨h2, h1⟩
  · rintro (⟨h1, h2⟩ | ⟨h1, h2⟩)
    · exact ⟨_, Or.inl rfl, Or.inl (by rw [h1, h2])⟩
    · exact ⟨_, Or.inl rfl, Or.inr (by rw [h1, h2])⟩

/-- The printer's hash is that of the pair with the smaller program counter first. -/
theorem raceHash_eq (race : RaceInfo) : ∃ p q, raceHash combine race = pairHash combine p q ∧
    race.pcs = s(p, q) ∧ ¬ q < p := by
  rw [raceHash]
  split
  · rename_i hlt
    exact ⟨race.pc1, race.pc2, rfl, rfl, UInt64.lt_asymm hlt⟩
  · rename_i hlt
    exact ⟨race.pc2, race.pc1, rfl, Sym2.eq_swap, hlt⟩

theorem classified_raceHash (hhash : NoCollision combine pcs) (hin : Within pcs races) :
    Classified (fun race => {raceHash combine race}) RaceInfo.pcs races := by
  intro a ha b hb
  rw [Finset.disjoint_singleton, not_not]
  obtain ⟨p, q, ha', hap, hpq⟩ := @raceHash_eq combine a
  obtain ⟨p', q', hb', hbp, hpq'⟩ := @raceHash_eq combine b
  have hmem : ∀ {r : RaceInfo} {x y : UInt64}, r ∈ races → r.pcs = s(x, y) → x ∈ pcs ∧ y ∈ pcs := by
    intro r x y hr heq
    obtain ⟨h1, h2⟩ := hin r hr
    rcases Sym2.eq_iff.1 heq with ⟨rfl, rfl⟩ | ⟨rfl, rfl⟩
    · exact ⟨h1, h2⟩
    · exact ⟨h2, h1⟩
  obtain ⟨hp, hq⟩ := hmem ha hap
  obtain ⟨hp', hq'⟩ := hmem hb hbp
  rw [ha', hb', hap, hbp, Sym2.eq_iff]
  constructor
  · intro heq
    exact Or.inl (hhash p hp q hq p' hp' q' hq' heq)
  · rintro (⟨rfl, rfl⟩ | ⟨rfl, rfl⟩)
    · rfl
    · -- the same pair with either program counter first
      have hpq'' : p = q := by
        rw [UInt64.not_lt] at hpq hpq'
        exact UInt64.le_antisymm hpq hpq'
      rw [hpq'']

end Hash

/-! ## What the launcher leaves in the folder -/

/-- The interval that is analysed where the launcher means this one. -/
def effective (mode : Mode) (interval : Interval) : Interval :=
  match mode with
  | .localRun => interval
  | .clusterRun => (interval.1, 0)

/-- No later analysis of the region finds a race, and this one does. -/
def LastRacy (found : Interval → List Found) (runs : List Interval) (j : Interval) : Prop :=
  ∃ pre post, runs = pre ++ j :: post ∧ found j ≠ [] ∧ ∀ k ∈ post, k.1 = j.1 → found k = []

theorem lastRacy_concat {found : Interval → List Found} {runs : List Interval} {k j : Interval} :
    LastRacy found (runs ++ [k]) j ↔
      (j = k ∧ found k ≠ []) ∨ (LastRacy found runs j ∧ (k.1 = j.1 → found k = [])) := by
  constructor
  · rintro ⟨pre, post, hruns, hracy, hlater⟩
    rcases List.eq_nil_or_concat post with rfl | ⟨post', l, rfl⟩
    · obtain ⟨-, hk⟩ := List.append_inj' hruns rfl
      obtain rfl := (List.cons.inj hk).1
      exact Or.inl ⟨rfl, hracy⟩
    · rw [List.concat_eq_append, ← List.cons_append, ← List.append_assoc] at hruns
      obtain ⟨hpre, hk⟩ := List.append_inj' hruns rfl
      obtain rfl := (List.cons.inj hk).1
      refine Or.inr ⟨⟨pre, post', hpre, hracy, ?_⟩, hlater k ?_⟩
      · intro i hi
        exact hlater i (by rw [List.concat_eq_append]; exact List.mem_append_left _ hi)
      · rw [List.concat_eq_append]
        exact List.mem_append_right _ List.mem_cons_self
  · rintro (⟨rfl, hracy⟩ | ⟨⟨pre, post, rfl, hracy, hlater⟩, hk⟩)
    · exact ⟨runs, [], rfl, hracy, fun i hi => (List.not_mem_nil hi).elim⟩
    · refine ⟨pre, post ++ [k], by simp, hracy, ?_⟩
      intro i hi
      rcases List.mem_append.1 hi with hi | hi
      · exact hlater i hi
      · rw [List.mem_singleton.1 hi]
        exact hk

theorem mem_write {folder : Folder} {name n : Name} {entry e : Entry} :
    (n, e) ∈ folder.write name entry ↔ (n = name ∧ e = entry) ∨ (n ≠ name ∧ (n, e) ∈ folder) := by
  rw [Folder.write, List.mem_append, List.mem_filter, List.mem_singleton, Prod.mk.injEq,
    decide_eq_true_iff, or_comm, and_comm (a := n ≠ name)]

section Launch

variable {combine : UInt64 → UInt64 → UInt64} {lines : List MetaLine}
  {finds : OmptId → ℕ → List Found} {mode : Mode}

/-- The pairs found in an interval. -/
abbrev foundIn (lines : List MetaLine) (finds : OmptId → ℕ → List Found) (interval : Interval) :
    List Found := repRaces lines finds interval.1 interval.2

/-- The report of an interval. -/
def reportOf (combine : UInt64 → UInt64 → UInt64) (repRaces : List Found) : Entry :=
  .report (racesOf combine repRaces).length (racesOf combine repRaces)

/-- The folder after these analyses. -/
def FolderOf (combine : UInt64 → UInt64 → UInt64) (lines : List MetaLine)
    (finds : OmptId → ℕ → List Found) (runs : List Interval) (folder : Folder) : Prop :=
  ∀ name entry, (name, entry) ∈ folder ↔ (name = overhead ∧ entry = .directory ∅) ∨
    ∃ j, LastRacy (foundIn lines finds) runs j ∧ name = reportName j.1 ∧
      entry = reportOf combine (foundIn lines finds j)

/-- The directory `overhead` stays empty, and the launcher never skips an interval. -/
theorem FolderOf.overheadExists {runs : List Interval} {folder : Folder}
    (h : FolderOf combine lines finds runs folder) (key : OmptId) :
    overheadExists key folder = false := by
  rw [Report.overheadExists, List.any_eq_false]
  rintro ⟨name, entry⟩ hmem
  rcases (h name entry).1 hmem with ⟨-, rfl⟩ | ⟨j, -, rfl, -⟩
  · simp
  · simp [reportName_ne_overhead]

theorem launchOne_eq {folder : Folder} {interval : Interval}
    (h : overheadExists interval.1 folder = false) :
    launchOne combine lines finds mode folder interval =
      if foundIn lines finds (effective mode interval) = [] then folder
      else folder.write (reportName interval.1)
        (reportOf combine (foundIn lines finds (effective mode interval))) := by
  have hanalyze : ∀ barrierId, analyze combine lines finds interval.1 barrierId folder =
      if repRaces lines finds interval.1 barrierId = [] then folder
      else folder.write (reportName interval.1)
        (reportOf combine (repRaces lines finds interval.1 barrierId)) := by
    intro barrierId
    rw [analyze]
    by_cases hnil : repRaces lines finds interval.1 barrierId = []
    · rw [if_pos hnil, hnil]
      rfl
    · rw [if_neg hnil, if_pos]
      · rfl
      · rw [List.length_pos_iff, racesOf_eq, ne_eq, keepNew_eq_nil_iff, List.map_eq_nil_iff]
        exact hnil
  cases mode with
  | localRun =>
    rw [launchOne, h]
    exact hanalyze interval.2
  | clusterRun => exact hanalyze 0

theorem FolderOf.step {runs : List Interval} {folder : Folder}
    (h : FolderOf combine lines finds runs folder) (interval : Interval) :
    FolderOf combine lines finds (runs ++ [effective mode interval])
      (launchOne combine lines finds mode folder interval) := by
  have hkey : (effective mode interval).1 = interval.1 := by cases mode <;> rfl
  rw [launchOne_eq (h.overheadExists interval.1), ← hkey]
  generalize effective mode interval = k
  intro name entry
  by_cases hnil : foundIn lines finds k = []
  · rw [if_pos hnil, h]
    refine or_congr Iff.rfl (exists_congr fun j => ?_)
    rw [lastRacy_concat]
    simp [hnil]
  · rw [if_neg hnil, mem_write, h]
    constructor
    · rintro (⟨rfl, rfl⟩ | ⟨hne, hold | ⟨j, hj, rfl, rfl⟩⟩)
      · exact Or.inr ⟨k, lastRacy_concat.2 (Or.inl ⟨rfl, hnil⟩), rfl, rfl⟩
      · exact Or.inl hold
      · refine Or.inr ⟨j, lastRacy_concat.2 (Or.inr ⟨hj, ?_⟩), rfl, rfl⟩
        intro heq
        exact absurd (by rw [heq]) hne
    · rintro (⟨rfl, rfl⟩ | ⟨j, hj, rfl, rfl⟩)
      · exact Or.inr ⟨(reportName_ne_overhead _).symm, Or.inl ⟨rfl, rfl⟩⟩
      · rcases lastRacy_concat.1 hj with ⟨rfl, -⟩ | ⟨hj, hk⟩
        · exact Or.inl ⟨rfl, rfl⟩
        · refine Or.inr ⟨?_, Or.inr ⟨j, hj, rfl, rfl⟩⟩
          intro heq
          exact hnil (hk (reportName_inj heq).symm)

/-- **The folder after a launch** holds the races of the last racy analysis of every region. -/
theorem folderOf_launch (order : LaunchOrder lines) :
    FolderOf combine lines finds (order.1.map (effective mode))
      (launch combine lines finds mode order) := by
  rw [launch]
  generalize order.1 = order
  induction order using List.reverseRecOn with
  | nil =>
    intro name entry
    have hnone : ∀ j, ¬ LastRacy (foundIn lines finds) [] j := by
      rintro j ⟨pre, post, hruns, -⟩
      simp at hruns
    simp [mkdirOverhead, hnone]
  | append_singleton order interval ih =>
    rw [List.foldl_concat, List.map_append, List.map_singleton]
    exact ih.step interval

/-! ## What the printer makes of the folder -/

/-- The races read from an entry. -/
def contents (dir : Name) (e : Name × Entry) : List RaceInfo :=
  if Skipped (joinPath dir e.1) then []
  else
    match e.2 with
    | .directory _ => []
    | .report _ records => records

/-- The entry is skipped, or a report with the number of its records. -/
def Readable (dir : Name) (e : Name × Entry) : Prop :=
  Skipped (joinPath dir e.1) ∨ ∃ records, e.2 = .report records.length records

theorem readEntry_eq {dir : Name} {e : Name × Entry} (h : Readable dir e) (races : List RaceInfo) :
    readEntry dir races e = some (races ++ contents dir e) := by
  rw [readEntry, contents]
  by_cases hskip : Skipped (joinPath dir e.1)
  · rw [if_pos hskip, if_pos hskip, List.append_nil]
  · obtain ⟨records, he⟩ := h.resolve_left hskip
    rw [if_neg hskip, if_neg hskip, he]
    simp

theorem foldlM_readEntry {dir : Name} {entries : List (Name × Entry)}
    (h : ∀ e ∈ entries, Readable dir e) (races : List RaceInfo) :
    entries.foldlM (readEntry dir) races = some (races ++ entries.flatMap (contents dir)) := by
  induction entries generalizing races with
  | nil => simp
  | cons e entries ih =>
    have ih := ih (fun d hd => h d (List.mem_cons_of_mem _ hd)) (races ++ contents dir e)
    rw [List.foldlM_cons, readEntry_eq (h e List.mem_cons_self), List.flatMap_cons,
      ← List.append_assoc]
    exact ih

/-- **Printing** goes through all races read, and prints each pair once. -/
theorem printReport_spec {dir : Name} {entries : List (Name × Entry)} {pcs : Set UInt64}
    (h : ∀ e ∈ entries, Readable dir e) (hhash : NoCollision combine pcs)
    (hin : Within pcs (entries.flatMap (contents dir))) :
    ∃ rs, printReport combine dir entries = some rs ∧ (rs.map RaceInfo.pcs).Nodup ∧
      ∀ p, p ∈ rs.map RaceInfo.pcs ↔ p ∈ (entries.flatMap (contents dir)).map RaceInfo.pcs := by
  obtain ⟨-, hnodup, hclasses⟩ := keepNew_spec (classified_raceHash hhash hin)
  refine ⟨_, ?_, hnodup, hclasses⟩
  rw [printReport, foldlM_readEntry h, List.nil_append]
  show some _ = some _
  rw [keepNew]
  congr 3
  funext s race
  exact printRace_eq s race

/-! ## The pairs found and the pairs printed -/

theorem mem_regions_iff {interval : Interval} :
    interval ∈ regions lines ↔ ∃ line ∈ lines, interval = (line.parallelId, line.bid) := by
  have hfold : ∀ (rest : List MetaLine) (seen : List Interval),
      interval ∈ rest.foldl addRegion seen ↔
        interval ∈ seen ∨ ∃ line ∈ rest, interval = (line.parallelId, line.bid) := by
    intro rest
    induction rest with
    | nil => simp
    | cons line rest ih =>
      intro seen
      have hadd : interval ∈ addRegion seen line ↔
          interval ∈ seen ∨ interval = (line.parallelId, line.bid) := by
        rw [addRegion]
        split
        · rename_i hmem
          refine ⟨Or.inl, ?_⟩
          rintro (h | rfl)
          · exact h
          · exact hmem
        · rw [List.mem_append, List.mem_singleton]
      rw [List.foldl_cons, ih, hadd, or_assoc]
      simp only [List.mem_cons, or_and_right, exists_or, exists_eq_left]
  rw [regions, hfold]
  simp

theorem mem_foundIn_iff {interval : Interval} {pair : Found} :
    pair ∈ foundIn lines finds interval ↔
      interval ∈ regions lines ∧ pair ∈ finds interval.1 interval.2 := by
  have hiff : (∃ line ∈ lines, interval.1 = line.parallelId ∧ interval.2 = line.bid) ↔
      interval ∈ regions lines := by
    rw [mem_regions_iff]
    refine exists_congr fun line => and_congr_right fun _ => ?_
    exact (@Prod.ext_iff _ _ interval (line.parallelId, line.bid)).symm
  rw [foundIn, repRaces, ← hiff]
  split
  · rename_i h
    exact (and_iff_right h).symm
  · rename_i h
    exact iff_of_false List.not_mem_nil fun h' => h h'.1

/-- The program counters of the pairs found. -/
def pcsFound (lines : List MetaLine) (finds : OmptId → ℕ → List Found) : Set UInt64 :=
  {pc | ∃ interval ∈ regions lines, ∃ pair ∈ finds interval.1 interval.2,
    pc = pair.1.pc - 1 ∨ pc = pair.2.pc - 1}

theorem within_foundIn (interval : Interval) :
    Within (pcsFound lines finds) ((foundIn lines finds interval).map raceInfo) := by
  intro race hrace
  obtain ⟨pair, hpair, rfl⟩ := List.mem_map.1 hrace
  obtain ⟨hmem, hfinds⟩ := mem_foundIn_iff.1 hpair
  exact ⟨⟨interval, hmem, pair, hfinds, Or.inl rfl⟩, ⟨interval, hmem, pair, hfinds, Or.inr rfl⟩⟩

/-- The pairs an analysis saves are those it has found. -/
theorem racesOf_foundIn (hhash : NoCollision combine (pcsFound lines finds)) (interval : Interval) :
    Within (pcsFound lines finds) (racesOf combine (foundIn lines finds interval)) ∧
      ∀ p, p ∈ (racesOf combine (foundIn lines finds interval)).map RaceInfo.pcs ↔
        p ∈ (foundIn lines finds interval).map foundPcs := by
  have hin := @within_foundIn lines finds interval
  obtain ⟨hsubset, -, hclasses⟩ := keepNew_spec (classified_bothHashes hhash hin)
  rw [racesOf_eq]
  refine ⟨fun race hrace => hin race (hsubset hrace), fun p => ?_⟩
  rw [hclasses, List.map_map]
  rfl

/-- The printer prints exactly the pairs found in the intervals of the metafiles, each once. -/
def PrintsUnion (lines : List MetaLine) (finds : OmptId → ℕ → List Found)
    (printed : Option (List RaceInfo)) : Prop :=
  ∃ rs, printed = some rs ∧ (rs.map RaceInfo.pcs).Nodup ∧
    ∀ p, p ∈ rs.map RaceInfo.pcs ↔
      ∃ interval ∈ regions lines, ∃ pair ∈ finds interval.1 interval.2, p = foundPcs pair

/-- Every pair found in an interval is found by the last racy analysis of some region as
well, and the path of the folder is not one that the printer skips. -/
def NothingLost (mode : Mode) (dir : Name) (lines : List MetaLine)
    (finds : OmptId → ℕ → List Found) (order : LaunchOrder lines) : Prop :=
  ∀ interval ∈ regions lines, ∀ pair ∈ finds interval.1 interval.2, ¬ Skipped dir ∧
    ∃ j, LastRacy (foundIn lines finds) (order.1.map (effective mode)) j ∧
      foundPcs pair ∈ (foundIn lines finds j).map foundPcs

end Launch

/-! ## What is printed after a launch -/

section Printed

variable {mode : Mode} {combine : UInt64 → UInt64 → UInt64} {dir : Name} {lines : List MetaLine}
  {finds : OmptId → ℕ → List Found} {order : LaunchOrder lines} {entries : List (Name × Entry)}

theorem mem_entries_iff (hentries : entries.Perm (launch combine lines finds mode order))
    {name : Name} {entry : Entry} :
    (name, entry) ∈ entries ↔ (name = overhead ∧ entry = .directory ∅) ∨
      ∃ j, LastRacy (foundIn lines finds) (order.1.map (effective mode)) j ∧
        name = reportName j.1 ∧ entry = reportOf combine (foundIn lines finds j) := by
  rw [hentries.mem_iff, folderOf_launch]

theorem readable_launch (hentries : entries.Perm (launch combine lines finds mode order)) :
    ∀ e ∈ entries, Readable dir e := by
  rintro ⟨name, entry⟩ he
  rcases (mem_entries_iff hentries).1 he with ⟨rfl, -⟩ | ⟨j, -, -, rfl⟩
  · exact Or.inl (skipped_overhead dir)
  · exact Or.inr ⟨_, rfl⟩

/-- The printer reads the reports of the last racy analyses. -/
theorem mem_contents_iff (hentries : entries.Perm (launch combine lines finds mode order))
    {race : RaceInfo} : race ∈ entries.flatMap (contents dir) ↔ ¬ Skipped dir ∧
      ∃ j, LastRacy (foundIn lines finds) (order.1.map (effective mode)) j ∧
        race ∈ racesOf combine (foundIn lines finds j) := by
  rw [List.mem_flatMap]
  constructor
  · rintro ⟨⟨name, entry⟩, he, hrace⟩
    rw [contents] at hrace
    split at hrace
    · exact (List.not_mem_nil hrace).elim
    · rename_i hskip
      rcases (mem_entries_iff hentries).1 he with ⟨rfl, -⟩ | ⟨j, hj, rfl, rfl⟩
      · exact absurd (skipped_overhead dir) hskip
      · exact ⟨fun h => hskip ((skipped_reportName_iff dir j.1).2 h), j, hj, hrace⟩
  · rintro ⟨hskip, j, hj, hrace⟩
    refine ⟨_, (mem_entries_iff hentries).2 (Or.inr ⟨j, hj, rfl, rfl⟩), ?_⟩
    rw [contents, if_neg fun h => hskip ((skipped_reportName_iff dir j.1).1 h)]
    exact hrace

/-- Each pair found by a last racy analysis is printed, once. -/
theorem printReport_launch (hentries : entries.Perm (launch combine lines finds mode order))
    (hhash : NoCollision combine (pcsFound lines finds)) :
    ∃ rs, printReport combine dir entries = some rs ∧ (rs.map RaceInfo.pcs).Nodup ∧
      ∀ p, p ∈ rs.map RaceInfo.pcs ↔ ¬ Skipped dir ∧
        ∃ j, LastRacy (foundIn lines finds) (order.1.map (effective mode)) j ∧
          p ∈ (foundIn lines finds j).map foundPcs := by
  have hin : Within (pcsFound lines finds) (entries.flatMap (contents dir)) := by
    intro race hrace
    obtain ⟨-, j, -, hj⟩ := (mem_contents_iff hentries).1 hrace
    exact (racesOf_foundIn hhash j).1 race hj
  obtain ⟨rs, hprint, hnodup, hrs⟩ := printReport_spec (readable_launch hentries) hhash hin
  refine ⟨rs, hprint, hnodup, fun p => ?_⟩
  rw [hrs, List.mem_map]
  constructor
  · rintro ⟨race, hrace, rfl⟩
    obtain ⟨hskip, j, hj, hmem⟩ := (mem_contents_iff hentries).1 hrace
    exact ⟨hskip, j, hj, ((racesOf_foundIn hhash j).2 _).1 (List.mem_map_of_mem hmem)⟩
  · rintro ⟨hskip, j, hj, hp⟩
    obtain ⟨race, hrace, rfl⟩ := List.mem_map.1 (((racesOf_foundIn hhash j).2 p).2 hp)
    exact ⟨race, (mem_contents_iff hentries).2 ⟨hskip, j, hj, hrace⟩, rfl⟩

end Printed

/-- **When every race found is printed**, each pair once: in both modes, for every order of
the analyses and of the directory's entries. -/
theorem printsUnion_iff (mode : Mode) (combine : UInt64 → UInt64 → UInt64) (dir : Name)
    (lines : List MetaLine) (finds : OmptId → ℕ → List Found) (order : LaunchOrder lines)
    (entries : List (Name × Entry))
    (hentries : entries.Perm (launch combine lines finds mode order))
    (hhash : NoCollision combine (pcsFound lines finds)) :
    PrintsUnion lines finds (printReport combine dir entries) ↔
      NothingLost mode dir lines finds order := by
  obtain ⟨rs, hprint, hnodup, hpcs⟩ := @printReport_launch mode combine dir _ _ _ _ hentries hhash
  constructor
  · rintro ⟨rs', hprint', -, hunion⟩ interval hinterval pair hpair
    obtain rfl : rs = rs' := Option.some.inj (hprint.symm.trans hprint')
    exact (hpcs _).1 ((hunion _).2 ⟨interval, hinterval, pair, hpair, rfl⟩)
  · intro hall
    refine ⟨rs, hprint, hnodup, fun p => ?_⟩
    rw [hpcs]
    constructor
    · rintro ⟨-, j, -, hp⟩
      obtain ⟨pair, hpair, rfl⟩ := List.mem_map.1 hp
      obtain ⟨hj, hfinds⟩ := mem_foundIn_iff.1 hpair
      exact ⟨j, hj, pair, hfinds, rfl⟩
    · rintro ⟨interval, hinterval, pair, hpair, rfl⟩
      exact hall interval hinterval pair hpair

/-- Two writes to 4096, by the instructions before these program counters. -/
def writePair (pc1 pc2 : UInt64) : Found :=
  (⟨4096, 4096, 1, 0x21, 0, pc1, ∅⟩, ⟨4096, 4096, 1, 0x21, 0, pc2, ∅⟩)

/-- In the first interval an instruction races with itself, in the others two do. -/
def findsPerInterval (_ : OmptId) (bid : ℕ) : List Found :=
  if bid = 0 then [writePair 65 65] else [writePair 67 68]

/-- A region with one interval, and one with two. -/
def twoRegions : List MetaLine :=
  [⟨7, 0, 0, 0, 2, 1, 0, 64⟩, ⟨8, 0, 0, 0, 2, 1, 64, 128⟩, ⟨8, 0, 1, 0, 2, 1, 128, 192⟩]

theorem noCollision_twoRegions :
    NoCollision boostHashCombine (pcsFound twoRegions findsPerInterval) := by
  have hpcs : ∀ pc ∈ pcsFound twoRegions findsPerInterval, pc ∈ ([64, 66, 67] : List UInt64) := by
    rintro pc ⟨interval, hinterval, pair, hpair, h⟩
    rw [findsPerInterval] at hpair
    split at hpair
    · rw [List.mem_singleton.1 hpair] at h
      rcases h with rfl | rfl <;> decide
    · rw [List.mem_singleton.1 hpair] at h
      rcases h with rfl | rfl <;> decide
  have hnodup : ((([64, 66, 67] : List UInt64) ×ˢ ([64, 66, 67] : List UInt64)).map fun pq =>
      pairHash boostHashCombine pq.1 pq.2).Nodup := by decide +kernel
  intro p hp q hq p' hp' q' hq' heq
  exact Prod.ext_iff.1 (List.inj_on_of_nodup_map hnodup
    (List.mem_product.2 ⟨hpcs p hp, hpcs q hq⟩) (List.mem_product.2 ⟨hpcs p' hp', hpcs q' hq'⟩) heq)

/-- The report of the second region's first interval is replaced, but the same instruction was
found in the first region, too. -/
theorem printsUnion_twoRegions :
    PrintsUnion twoRegions findsPerInterval (printReport boostHashCombine ['r']
      (launch boostHashCombine twoRegions findsPerInterval .localRun
        ⟨[(7, 0), (8, 0), (8, 1)], by decide⟩).reverse) := by
  refine (printsUnion_iff .localRun boostHashCombine ['r'] twoRegions findsPerInterval
    ⟨[(7, 0), (8, 0), (8, 1)], by decide⟩ _ (List.reverse_perm _) noCollision_twoRegions).2 ?_
  have hfirst : LastRacy (foundIn twoRegions findsPerInterval) [(7, 0), (8, 0), (8, 1)] (7, 0) :=
    ⟨[], [(8, 0), (8, 1)], rfl, by decide, by decide⟩
  have hsecond : LastRacy (foundIn twoRegions findsPerInterval) [(7, 0), (8, 0), (8, 1)] (8, 1) :=
    ⟨[(7, 0), (8, 0)], [], rfl, by decide, by decide⟩
  intro interval hinterval pair hpair
  have hmem : interval ∈ ([(7, 0), (8, 0), (8, 1)] : List Interval) := hinterval
  simp only [List.mem_cons, List.not_mem_nil, or_false] at hmem
  rcases hmem with rfl | rfl | rfl
  · rw [List.mem_singleton.1 hpair]
    exact ⟨by decide, (7, 0), hfirst, by decide⟩
  · rw [List.mem_singleton.1 hpair]
    exact ⟨by decide, (7, 0), hfirst, by decide⟩
  · rw [List.mem_singleton.1 hpair]
    exact ⟨by decide, (8, 1), hsecond, by decide⟩

/-- A region with two intervals. -/
def twoIntervals : List MetaLine := [⟨7, 0, 0, 0, 2, 1, 0, 64⟩, ⟨7, 0, 1, 0, 2, 1, 64, 128⟩]

/-- The report of the second interval replaces that of the first. -/
theorem twoIntervals_lost :
    ¬ PrintsUnion twoIntervals findsPerInterval
      (printReport boostHashCombine ['r'] (launch boostHashCombine twoIntervals findsPerInterval
        .localRun ⟨[(7, 0), (7, 1)], by decide⟩)) := by
  rintro ⟨rs, hprint, -, hunion⟩
  have hlast : printReport boostHashCombine ['r'] (launch boostHashCombine twoIntervals
      findsPerInterval .localRun ⟨[(7, 0), (7, 1)], by decide⟩) =
        some [⟨4096, 1, 2, 66, 1, 2, 67⟩] := by
    decide +kernel
  rw [hlast] at hprint
  obtain rfl := Option.some.inj hprint
  have hmem := (hunion s(64, 64)).2 ⟨(7, 0), by decide, writePair 65 65, by decide, rfl⟩
  exact absurd hmem (by decide)

end Report
end Tools
end Sword
