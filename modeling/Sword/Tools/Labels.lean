import Sword.Tools.Regions

/-!
# The labels of the metafile lines

Two callbacks write a line: the begin of an implicit task prints the thread number and the
team size it is called with, a sync region prints the thread-local label.  The label is set
where a task of level 1 begins with span 0, and overwritten where a region is encountered
inside another; the end of a region does not restore it.

* `callback_label`, `callback_line` — the label after a call, and the one in the line.
* `Labelled` — a thread with two history variables: the number and the team size of its tasks,
  and what the label in force comes from.
* `LabelInForce` — a sync region of a level-1 task finds the label of that task.
* `Exact`, `Exact.step` — the invariant of all histories.
* `labels_exact` — the lines of level-1 regions carry the labels of their regions.
-/

namespace Sword
namespace Tools

open Rtl Run

variable {lzo : Lzo} {hashCombine : UInt64 → UInt64 → UInt64} {s : Tls}

/-! ## The thread-local label -/

/-- `__sword_offset__` and `__sword_span__`. -/
def label (s : Tls) : UInt32 × UInt32 := (s.offset, s.span)

theorem label_runDump : label (runDump lzo s) = label s := by
  unfold runDump
  cases s.fut <;> rfl

theorem label_flushBuffer (n : Nat) : label (flushBuffer lzo n s) = label s := by
  rw [flushBuffer_eq]
  show label (runDump lzo s) = label s
  exact label_runDump

theorem label_putItem (x : TraceItem) : label (putItem lzo x s) = label s := by
  have hbump : label (bumpItem x s) = label s := by
    unfold bumpItem storeItem
    cases s.accesses <;> rfl
  rw [putItem_eq]
  split
  · exact (label_flushBuffer _).trans hbump
  · exact hbump

theorem label_flushNow (lzo : Lzo) (s : Tls) :
    label (futWait lzo (dumpnocheckToFileM lzo s)) = label s := by
  unfold futWait dumpnocheckToFileM
  split
  · exact label_runDump.trans (label_flushBuffer _)
  · exact label_runDump

/-- The label after a call. -/
def labelAfter (s : Tls) : Callback → UInt32 × UInt32
  | .parallelBegin _ _ threadNum teamSize =>
    if s.status + 1 = 1 then label s
    else (if s.span ≠ 0 then s.offset + s.span else threadNum + teamSize, teamSize)
  | .implicitTaskBegin par teamSize threadNum =>
    if par.level = 1 ∧ s.span = 0 then (threadNum, teamSize) else label s
  | _ => label s

theorem callback_label (c : Callback) : label (callback lzo hashCombine s c) = labelAfter s c := by
  cases c with
  | access asize atype addr callerpc =>
    unfold callback saveAccess
    dsimp only
    split
    · rfl
    · exact label_putItem _
  | mutexAcquired kind waitId => exact label_putItem _
  | mutexReleased kind waitId => exact label_putItem _
  | parallelBegin parentTask pid threadNum teamSize =>
    unfold callback onParallelBegin labelAfter
    dsimp only
    split
    · rfl
    · split <;> rfl
  | parallelEnd => rfl
  | implicitTaskBegin par teamSize threadNum =>
    have hflush := label_flushNow lzo { s with status := par.level, bid := 0 }
    have hspan : (writeMetaLine par threadNum teamSize (futWait lzo (dumpnocheckToFileM lzo
        { s with status := par.level, bid := 0 }))).span = s.span := congrArg Prod.snd hflush
    unfold callback onImplicitTaskBegin labelAfter
    dsimp only
    by_cases hlevel : par.level = 1
    · rw [if_pos hlevel]
      by_cases hs : s.span = 0
      · rw [if_pos (hspan.trans hs), if_pos ⟨hlevel, hs⟩]
        rfl
      · rw [if_neg (fun h => hs (hspan.symm.trans h)), if_neg (fun h => hs h.2)]
        exact hflush
    · rw [if_neg hlevel, if_neg (fun h => hlevel h.1)]
      rfl
  | implicitTaskEnd => rfl
  | syncRegionBegin kind par => exact label_flushNow lzo s
  | syncRegionEnd => rfl

/-- The label a call prints. -/
def printed (s : Tls) : Callback → UInt32 × UInt32
  | .implicitTaskBegin _ teamSize threadNum => (threadNum, teamSize)
  | _ => label s

/-- The line of a call has the number and the level of the region, and the label printed. -/
theorem callback_line (lzo : Lzo) (hashCombine : UInt64 → UInt64 → UInt64) (s : Tls)
    {c : Callback} {par : ParallelData} (hc : lineOf c = some par) :
    ∃ l : MetaLine, (callback lzo hashCombine s c).metafile = s.metafile ++ [l] ∧
      l.parallelId = par.parallelId ∧ l.level = par.level ∧
        (l.offset, l.span) = printed s c := by
  cases c with
  | implicitTaskBegin par' teamSize threadNum =>
    have hpar : (if par'.level = 1 then some par' else none) = some par := hc
    by_cases hlevel : par'.level = 1
    · rw [if_pos hlevel] at hpar
      obtain rfl := Option.some.inj hpar
      have h := sameLabels_flushNow lzo { s with status := par'.level, bid := 0 }
      unfold callback onImplicitTaskBegin
      dsimp only
      rw [if_pos hlevel]
      split
      · exact ⟨_, congrArg (· ++ _) h.metafile, rfl, rfl, rfl⟩
      · exact ⟨_, congrArg (· ++ _) h.metafile, rfl, rfl, rfl⟩
    · rw [if_neg hlevel] at hpar
      cases hpar
  | syncRegionBegin kind par' =>
    obtain rfl := Option.some.inj hc
    have h := sameLabels_flushNow lzo s
    exact ⟨_, congrArg (· ++ _) h.metafile, rfl, rfl, label_flushNow lzo s⟩
  | _ => cases hc

/-! ## Events -/

/-- The task an event begins: its region, the thread number and the team size. -/
def begun (t : ThreadState) : ThreadEvent → Option (ParallelData × UInt32 × UInt32)
  | .taskBegin teamSize threadNum => some (top t.stack, threadNum, teamSize)
  | .workerTaskBegin par teamSize threadNum => some (par, threadNum, teamSize)
  | _ => none

/-- A thread, and two history variables that nothing reads.  `taskOf` is the thread number and
the team size of the task of a region, once it has begun.  `labelledBy` is that of the task
that set the label in force: there is none at first, nor after a region encountered inside
another. -/
structure Labelled where
  thread : ThreadState := {}
  taskOf : OmptId → Option (UInt32 × UInt32) := fun _ => none
  labelledBy : Option (UInt32 × UInt32) := none

/-- One event. -/
def Labelled.step (lzo : Lzo) (hashCombine : UInt64 → UInt64 → UInt64) (w : Labelled)
    (e : ThreadEvent) : Labelled where
  thread := w.thread.step lzo hashCombine e
  taskOf :=
    match begun w.thread e with
    | some (par, task) => Function.update w.taskOf par.parallelId (some task)
    | none => w.taskOf
  labelledBy :=
    match begun w.thread e, e with
    | some (par, task), _ =>
      if par.level = 1 ∧ w.thread.tls.span = 0 then some task else w.labelledBy
    | none, .parallelBegin _ _ _ =>
      if w.thread.tls.status = 0 then w.labelledBy else none
    | none, _ => w.labelledBy

/-- The label a sync region of a level-1 task finds has been set by a task with the thread
number and the team size of that one. -/
def LabelInForce (w : Labelled) : ThreadEvent → Prop
  | .syncBegin _ => (top w.thread.stack).level = 1 →
      ∃ task, w.labelledBy = some task ∧ w.taskOf (top w.thread.stack).parallelId = some task
  | _ => True

variable {t : ThreadState}

theorem label_step (e : ThreadEvent) : label (t.step lzo hashCombine e).tls =
    match e.event t.stack with
    | .call c => labelAfter t.tls c
    | .background => label t.tls := by
  rw [tls_step]
  cases e.event t.stack with
  | call c => exact callback_label c
  | background => exact label_runDump

/-- The call behind the begin of a task. -/
theorem event_of_begun {e : ThreadEvent} {par : ParallelData} {task : UInt32 × UInt32}
    (hb : begun t e = some (par, task)) :
    e.event t.stack = .call (.implicitTaskBegin par task.2 task.1) := by
  cases e with
  | taskBegin teamSize threadNum =>
    cases hb
    rfl
  | workerTaskBegin par' teamSize threadNum =>
    cases hb
    rfl
  | _ => cases hb

/-- An event writes no line, the line of the task on top of the stack with the thread-local
label, or the line of a task that begins, with the label of that task. -/
theorem line_step (lzo : Lzo) (hashCombine : UInt64 → UInt64 → UInt64) (t : ThreadState)
    (e : ThreadEvent) :
    (t.step lzo hashCombine e).tls.metafile = t.tls.metafile ∨
      ∃ l, (t.step lzo hashCombine e).tls.metafile = t.tls.metafile ++ [l] ∧
        ((∃ kind, e = .syncBegin kind) ∧ l.parallelId = (top t.stack).parallelId ∧
            l.level = (top t.stack).level ∧ (l.offset, l.span) = label t.tls ∨
          ∃ par, begun t e = some (par, l.offset, l.span) ∧ l.parallelId = par.parallelId) := by
  cases hline : eventLine t e with
  | none => exact Or.inl (step_of_eventLine_none lzo hashCombine hline).1
  | some par =>
    rw [tls_step]
    cases hb : begun t e with
    | some b =>
      obtain ⟨par', task⟩ := b
      have hcall := event_of_begun hb
      have hlineOf : lineOf (.implicitTaskBegin par' task.2 task.1) = some par := by
        rw [← hline, eventLine, hcall]
      obtain ⟨l, hm, hid, -, hl⟩ := callback_line lzo hashCombine t.tls hlineOf
      have hpar : (if par'.level = 1 then some par' else none) = some par := hlineOf
      split at hpar
      · obtain rfl := Option.some.inj hpar
        have hl : (l.offset, l.span) = task := hl
        rw [hcall]
        exact Or.inr ⟨l, hm, Or.inr ⟨par', by rw [hl], hid⟩⟩
      · cases hpar
    | none =>
      cases e with
      | syncBegin kind =>
        obtain ⟨l, hm, hid, hlevel, hl⟩ := callback_line lzo hashCombine t.tls
          (c := .syncRegionBegin kind (top t.stack)) hline
        obtain rfl : top t.stack = par := Option.some.inj hline
        exact Or.inr ⟨l, hm, Or.inl ⟨⟨kind, rfl⟩, hid, hlevel, hl⟩⟩
      | taskBegin teamSize threadNum => cases hb
      | workerTaskBegin par' teamSize threadNum => cases hb
      | _ => cases hline

/-- A task begins of a region that the thread has had no task of. -/
theorem not_live_of_begun {e : ThreadEvent} (hwf : WellNested t e) {par : ParallelData}
    {task : UInt32 × UInt32} (hb : begun t e = some (par, task)) : ¬ Live par.parallelId t := by
  intro hlive
  cases e with
  | taskBegin teamSize threadNum =>
    obtain ⟨rfl, -⟩ := Prod.mk.inj (Option.some.inj hb)
    obtain ⟨par', fs, hs⟩ := hwf
    refine hlive.begun (top t.stack) ?_ rfl
    rw [hs]
    exact List.mem_cons_self
  | workerTaskBegin par' teamSize threadNum =>
    obtain ⟨rfl, -⟩ := Prod.mk.inj (Option.some.inj hb)
    exact hwf.2.1 hlive.started
  | _ => cases hb

theorem live_of_begun (h : Nest t) {e : ThreadEvent} (hwf : WellNested t e) {par : ParallelData}
    {task : UInt32 × UInt32} (hb : begun t e = some (par, task)) :
    Live par.parallelId (t.step lzo hashCombine e) := by
  have hnest : Nest (t.step lzo hashCombine e) := h.step hwf
  cases e with
  | taskBegin teamSize threadNum =>
    obtain ⟨rfl, -⟩ := Prod.mk.inj (Option.some.inj hb)
    exact live_of_innermost hnest rfl
  | workerTaskBegin par' teamSize threadNum =>
    obtain ⟨rfl, -⟩ := Prod.mk.inj (Option.some.inj hb)
    exact live_of_innermost hnest rfl
  | _ => cases hb

/-! ## The invariant -/

/-- What holds between two events: `labelledBy` is the label, every line of a level-1 region
has the label of its region, and only a region whose task has begun has one. -/
structure Exact (w : Labelled) : Prop where
  nest : Nest w.thread
  label : ∀ task, w.labelledBy = some task → label w.thread.tls = task
  lines : ∀ l ∈ w.thread.tls.metafile, l.level = 1 →
    w.taskOf l.parallelId = some (l.offset, l.span)
  live : ∀ pid task, w.taskOf pid = some task → Live pid w.thread

theorem exact_init : Exact {} where
  nest := nest_init
  label _ h := by cases h
  lines _ h := (List.not_mem_nil h).elim
  live _ _ h := by cases h

variable {w : Labelled} {e : ThreadEvent}

/-- The label a region has does not change. -/
theorem Exact.taskOf_step (h : Exact w) (hwf : WellNested w.thread e) {pid : OmptId}
    {task : UInt32 × UInt32} (hpid : w.taskOf pid = some task) :
    (w.step lzo hashCombine e).taskOf pid = some task := by
  unfold Labelled.step
  dsimp only
  cases hb : begun w.thread e with
  | none => exact hpid
  | some b =>
    obtain ⟨par, task'⟩ := b
    have hne : pid ≠ par.parallelId :=
      fun heq => not_live_of_begun hwf hb (heq ▸ h.live pid task hpid)
    exact (Function.update_of_ne hne _ _).trans hpid

theorem taskOf_of_begun {par : ParallelData} {task : UInt32 × UInt32}
    (hb : begun w.thread e = some (par, task)) :
    (w.step lzo hashCombine e).taskOf par.parallelId = some task := by
  unfold Labelled.step
  rw [hb]
  exact Function.update_self ..

theorem Exact.live_step (h : Exact w) (hwf : WellNested w.thread e) {pid : OmptId}
    {task : UInt32 × UInt32} (hpid : (w.step lzo hashCombine e).taskOf pid = some task) :
    Live pid (w.step lzo hashCombine e).thread := by
  have hold : ∀ task, w.taskOf pid = some task → Live pid (w.step lzo hashCombine e).thread :=
    fun task htask => ((h.live pid task htask).step lzo hashCombine hwf).1
  unfold Labelled.step at hpid
  dsimp only at hpid
  cases hb : begun w.thread e with
  | none =>
    rw [hb] at hpid
    exact hold task hpid
  | some b =>
    obtain ⟨par, task'⟩ := b
    rw [hb] at hpid
    by_cases heq : pid = par.parallelId
    · subst heq
      exact live_of_begun h.nest hwf hb
    · exact hold task ((Function.update_of_ne heq _ _).symm.trans hpid)

theorem Exact.label_step (h : Exact w) {task : UInt32 × UInt32}
    (htask : (w.step lzo hashCombine e).labelledBy = some task) :
    Tools.label (w.step lzo hashCombine e).thread.tls = task := by
  refine (Tools.label_step e).trans ?_
  unfold Labelled.step at htask
  dsimp only at htask
  cases hb : begun w.thread e with
  | some b =>
    obtain ⟨par, task'⟩ := b
    rw [hb] at htask
    have hset : (if par.level = 1 ∧ w.thread.tls.span = 0 then some task' else w.labelledBy) =
        some task := htask
    rw [event_of_begun hb]
    show (if par.level = 1 ∧ w.thread.tls.span = 0 then task' else Tools.label w.thread.tls) = task
    split at hset
    · exact (if_pos ‹_›).trans (Option.some.inj hset)
    · exact (if_neg ‹_›).trans (h.label task hset)
  | none =>
    rw [hb] at htask
    cases e with
    | parallelBegin pid threadNum teamSize =>
      have hkept : (if w.thread.tls.status = 0 then w.labelledBy else none) = some task := htask
      split at hkept
      · rename_i hstatus
        refine Eq.trans (if_pos ?_) (h.label task hkept)
        rw [hstatus]
        rfl
      · cases hkept
    | taskBegin teamSize threadNum => cases hb
    | workerTaskBegin par teamSize threadNum => cases hb
    | _ => exact h.label task htask

/-- The line of a sync region is exact if the label in force is that of its task. -/
theorem Exact.lines_step (h : Exact w) (hwf : WellNested w.thread e) (hl : LabelInForce w e)
    {l : MetaLine} (hmem : l ∈ (w.step lzo hashCombine e).thread.tls.metafile)
    (hlevel : l.level = 1) :
    (w.step lzo hashCombine e).taskOf l.parallelId = some (l.offset, l.span) := by
  have hold : l ∈ w.thread.tls.metafile →
      (w.step lzo hashCombine e).taskOf l.parallelId = some (l.offset, l.span) :=
    fun hmem => h.taskOf_step hwf (h.lines l hmem hlevel)
  have hmem : l ∈ (w.thread.step lzo hashCombine e).tls.metafile := hmem
  rcases line_step lzo hashCombine w.thread e with hsame | ⟨l', hm, hcase⟩
  · exact hold (hsame ▸ hmem)
  · rw [hm] at hmem
    rcases List.mem_append.1 hmem with hmem | hmem
    · exact hold hmem
    · obtain rfl := List.mem_singleton.1 hmem
      rcases hcase with ⟨⟨kind, rfl⟩, hid, htop, hlabel⟩ | ⟨par, hb, hid⟩
      · obtain ⟨task, hby, htask⟩ := hl (htop ▸ hlevel)
        rw [hid, hlabel, h.label task hby]
        exact h.taskOf_step hwf htask
      · rw [hid]
        exact taskOf_of_begun hb

/-- **One event.** -/
theorem Exact.step (h : Exact w) (hwf : WellNested w.thread e) (hl : LabelInForce w e) :
    Exact (w.step lzo hashCombine e) where
  nest := h.nest.step hwf
  label _ htask := h.label_step htask
  lines _ hmem hlevel := h.lines_step hwf hl hmem hlevel
  live _ _ hpid := h.live_step hwf hpid

/-- The state after a history. -/
def labelRun (lzo : Lzo) (hashCombine : UInt64 → UInt64 → UInt64) (es : List ThreadEvent) :
    Labelled := exec (Labelled.step lzo hashCombine) {} es

/-- **The labels of the lines.**  In every well nested history in which every sync region of a
level-1 task finds its label in force, each line of a level-1 region carries the thread's
number in the team of the region, and the size of the team. -/
theorem labels_exact (lzo : Lzo) (hashCombine : UInt64 → UInt64 → UInt64) (es : List ThreadEvent)
    (hwf : Guarded (Labelled.step lzo hashCombine) (fun w e => WellNested w.thread e) {} es)
    (hl : Guarded (Labelled.step lzo hashCombine) LabelInForce {} es) :
    ∀ l ∈ (labelRun lzo hashCombine es).thread.tls.metafile, l.level = 1 →
      (labelRun lzo hashCombine es).taskOf l.parallelId = some (l.offset, l.span) :=
  (invariant_of_guarded (P := Exact) (fun _ _ h hc => h.step hc.1 hc.2) exact_init
    (guarded_and.2 ⟨hwf, hl⟩)).lines

/-- A region of two threads, and after it one of four, each with a barrier. -/
def twoTeams : List ThreadEvent :=
  [.parallelBegin 7 0 2, .taskBegin 2 0, .syncBegin .barrier, .taskEnd, .parallelEnd,
    .parallelBegin 8 0 4, .taskBegin 4 0, .syncBegin .barrier]

theorem labels_exact_oneTeam :
    (labelRun Lzo.stored (fun _ _ => 0) (twoTeams.take 3)).taskOf 7 = some (0, 2) := by
  have hline : (labelRun Lzo.stored (fun _ _ => 0)
      (twoTeams.take 3)).thread.tls.metafile[1]? = some ⟨7, 0, 0, 0, 2, 1, 0, 0⟩ := rfl
  exact labels_exact Lzo.stored (fun _ _ => 0) (twoTeams.take 3)
    ⟨⟨List.not_mem_nil, Or.inl rfl⟩, ⟨_, _, rfl⟩, ⟨_, _, _, rfl⟩, trivial⟩
    ⟨trivial, trivial, fun _ => ⟨(0, 2), rfl, rfl⟩, trivial⟩ _ (List.mem_of_getElem? hline) rfl

/-- The line of the second barrier has the label of the first region. -/
theorem twoTeams_not_exact :
    ¬ ∀ es, Guarded (Labelled.step Lzo.stored fun _ _ => 0)
        (fun w e => WellNested w.thread e) {} es →
      ∀ l ∈ (labelRun Lzo.stored (fun _ _ => 0) es).thread.tls.metafile, l.level = 1 →
        (labelRun Lzo.stored (fun _ _ => 0) es).taskOf l.parallelId = some (l.offset, l.span) := by
  intro hall
  have hwf : Guarded (Labelled.step Lzo.stored fun _ _ => 0)
      (fun w e => WellNested w.thread e) {} twoTeams :=
    ⟨⟨List.not_mem_nil, Or.inl rfl⟩, ⟨_, _, rfl⟩, ⟨_, _, _, rfl⟩, ⟨_, _, _, rfl⟩, ⟨_, _, rfl⟩,
      ⟨by decide, Or.inl rfl⟩, ⟨_, _, rfl⟩, ⟨_, _, _, rfl⟩, trivial⟩
  have hline : (labelRun Lzo.stored (fun _ _ => 0) twoTeams).thread.tls.metafile[3]? =
      some ⟨8, 0, 0, 0, 2, 1, 0, 0⟩ := rfl
  have htask : some ((0 : UInt32), (4 : UInt32)) = some (0, 2) :=
    hall twoTeams hwf _ (List.mem_of_getElem? hline) rfl
  exact absurd htask (by decide)

end Tools
end Sword
