import Sword.Rtl.Metafile

/-!
# Nested regions on one thread

A thread executes implicit tasks of regions nested in one another: regions it
encounters itself, where it is the master, and regions it is a worker of, which
begin when it has nothing else on its stack.

* `Frame`, `ThreadState`, `ThreadEvent` — the stack of regions beside the state of
  the runtime, and the events on the thread.
* `WellNested` — the order the events of every program come in.
* `Nest` — the level of the runtime is the depth of the stack, the regions on the
  stack are different ones, and all have been seen.
* `Nest.step` / `nest_exec` — the invariant of all well nested histories.
* `Nest.two_le_level` — a region encountered inside another has a level above 1.
-/

namespace Sword
namespace Rtl

/-! ## The thread -/

/-- What is on the stack of a thread: a region it has encountered and not begun
its task of, a task (`own` if the thread encountered the region itself), or an own
region after its task. -/
inductive Frame
  | encountered (par : ParallelData)
  | task (par : ParallelData) (own : Bool)
  | finished (par : ParallelData)

/-- The region of a frame. -/
def Frame.par : Frame → ParallelData
  | .encountered par => par
  | .task par _ => par
  | .finished par => par

/-- A thread: the state of the runtime, the stack, the innermost frame first, and
the regions it has had to do with so far. -/
structure ThreadState where
  tls : Tls := onThreadBegin
  stack : List Frame := []
  seen : List OmptId := []

/-- The region the innermost implicit task belongs to. -/
def innermost : List Frame → Option ParallelData
  | [] => none
  | .task par _ :: _ => some par
  | _ :: fs => innermost fs

/-- The region on top of the stack. -/
def top (stack : List Frame) : ParallelData := (stack.head?.map Frame.par).getD default

/-- What happens on the thread. -/
inductive ThreadEvent
  | access (asize : AccessSize) (atype : AccessType) (addr callerpc : UInt64)
  | mutexAcquired (kind : UInt32) (waitId : UInt64)
  | mutexReleased (kind : UInt32) (waitId : UInt64)
  | parallelBegin (pid : OmptId) (threadNum teamSize : UInt32)
  | parallelEnd
  | taskBegin (teamSize threadNum : UInt32)
  | workerTaskBegin (par : ParallelData) (teamSize threadNum : UInt32)
  | taskEnd
  | syncBegin (kind : SyncRegionKind)
  | syncEnd
  | background

/-- The event of the runtime behind it. -/
def ThreadEvent.event (stack : List Frame) : ThreadEvent → Event
  | .access asize atype addr callerpc => .call (.access asize atype addr callerpc)
  | .mutexAcquired kind waitId => .call (.mutexAcquired kind waitId)
  | .mutexReleased kind waitId => .call (.mutexReleased kind waitId)
  | .parallelBegin pid threadNum teamSize =>
      .call (.parallelBegin ((innermost stack).getD default) pid threadNum teamSize)
  | .parallelEnd => .call .parallelEnd
  | .taskBegin teamSize threadNum => .call (.implicitTaskBegin (top stack) teamSize threadNum)
  | .workerTaskBegin par teamSize threadNum => .call (.implicitTaskBegin par teamSize threadNum)
  | .taskEnd => .call .implicitTaskEnd
  | .syncBegin kind => .call (.syncRegionBegin kind (top stack))
  | .syncEnd => .call .syncRegionEnd
  | .background => .background

/-- The data a region gets that is encountered now. -/
def ThreadState.newRegion (t : ThreadState) (pid : OmptId) (threadNum teamSize : UInt32) :
    ParallelData :=
  (onParallelBegin ((innermost t.stack).getD default) pid threadNum teamSize t.tls).2

/-- The stack after the end of a task. -/
def popTask : List Frame → List Frame
  | .task par true :: fs => .finished par :: fs
  | fs => fs.tail

section Machine

variable (lzo : Lzo) (hashCombine : UInt64 → UInt64 → UInt64)

/-- One event on the thread. -/
def ThreadState.step (t : ThreadState) (e : ThreadEvent) : ThreadState :=
  let t' := { t with tls := Rtl.step lzo hashCombine t.tls (e.event t.stack) }
  match e with
  | .parallelBegin pid threadNum teamSize =>
      { t' with stack := .encountered (t.newRegion pid threadNum teamSize) :: t.stack
                seen := pid :: t.seen }
  | .parallelEnd => { t' with stack := t.stack.tail }
  | .taskBegin _ _ => { t' with stack := .task (top t.stack) true :: t.stack.tail }
  | .workerTaskBegin par _ _ =>
      { t' with stack := .task par false :: t.stack, seen := par.parallelId :: t.seen }
  | .taskEnd => { t' with stack := popTask t.stack }
  | _ => t'

/-- A history of the thread. -/
def threadRun (t : ThreadState) (es : List ThreadEvent) : ThreadState :=
  Run.exec (ThreadState.step lzo hashCombine) t es

end Machine

/-- The order events come in.  A region gets a number that has not been used. -/
def WellNested (t : ThreadState) : ThreadEvent → Prop
  | .parallelBegin pid _ _ =>
      pid ∉ t.seen ∧ (t.stack = [] ∨ ∃ par own fs, t.stack = .task par own :: fs)
  | .parallelEnd => ∃ par fs, t.stack = .finished par :: fs
  | .taskBegin _ _ => ∃ par fs, t.stack = .encountered par :: fs
  | .workerTaskBegin par _ _ => t.stack = [] ∧ par.parallelId ∉ t.seen ∧ 1 ≤ par.level
  | .taskEnd => ∃ par own fs, t.stack = .task par own :: fs
  | .syncBegin _ => ∃ par own fs, t.stack = .task par own :: fs
  | _ => True

/-! ## The invariant of the stack -/

/-- The level of the runtime over a stack: every own region is one above what it
was encountered in, and nothing is below a task of a worker. -/
def LevelsOk : Int → List Frame → Prop
  | status, [] => 0 ≤ status
  | status, .encountered par :: fs => status = par.level ∧ LevelsOk (status - 1) fs
  | status, .task par true :: fs => status = par.level ∧ LevelsOk (status - 1) fs
  | status, .task par false :: fs => status = par.level ∧ 1 ≤ status ∧ fs = []
  | status, .finished _ :: fs => LevelsOk status fs

theorem LevelsOk.nonneg {status : Int} {stack : List Frame} (h : LevelsOk status stack) :
    0 ≤ status := by
  induction stack generalizing status with
  | nil => exact h
  | cons f fs ih =>
    cases f with
    | encountered par =>
      have := ih h.2
      omega
    | task par own =>
      cases own with
      | false =>
        have := h.2.1
        omega
      | true =>
        have := ih h.2
        omega
    | finished par => exact ih h

/-- Inside a task the level is positive. -/
theorem LevelsOk.one_le {status : Int} {stack : List Frame} (h : LevelsOk status stack)
    {par : ParallelData} {own : Bool} (ht : .task par own ∈ stack) : 1 ≤ status := by
  induction stack generalizing status with
  | nil => cases ht
  | cons f fs ih =>
    cases f with
    | encountered par' =>
      have := h.2.nonneg
      omega
    | task par' own' =>
      cases own' with
      | false => exact h.2.1
      | true =>
        have := h.2.nonneg
        omega
    | finished par' =>
      rcases List.mem_cons.1 ht with h0 | h0
      · cases h0
      · exact ih h h0

/-- What holds of the stack between two events. -/
structure Nest (t : ThreadState) : Prop where
  levels : LevelsOk t.tls.status t.stack
  nodup : (t.stack.map fun f => f.par.parallelId).Nodup
  seen : ∀ f ∈ t.stack, f.par.parallelId ∈ t.seen

theorem nest_init : Nest {} := ⟨le_refl _, List.nodup_nil, fun _ h => (List.not_mem_nil h).elim⟩

variable {lzo : Lzo} {hashCombine : UInt64 → UInt64 → UInt64} {t : ThreadState}

theorem newRegion_parallelId (pid : OmptId) (threadNum teamSize : UInt32) :
    (t.newRegion pid threadNum teamSize).parallelId = pid := by
  unfold ThreadState.newRegion onParallelBegin
  dsimp only
  split
  · rfl
  · split <;> rfl

theorem newRegion_level (pid : OmptId) (threadNum teamSize : UInt32) :
    (t.newRegion pid threadNum teamSize).level = t.tls.status + 1 := by
  unfold ThreadState.newRegion onParallelBegin
  dsimp only
  split
  · rfl
  · split <;> rfl

/-- A region encountered inside a task has a level above 1. -/
theorem Nest.two_le_level {par par' : ParallelData} {own : Bool} {fs : List Frame} (h : Nest t)
    (hs : t.stack = .encountered par :: fs) (ht : .task par' own ∈ fs) : 2 ≤ par.level := by
  have hl := h.levels
  rw [hs] at hl
  have h1 := hl.2.one_le ht
  have h2 : t.tls.status = par.level := hl.1
  omega

theorem tls_step (e : ThreadEvent) :
    (t.step lzo hashCombine e).tls = step lzo hashCombine t.tls (e.event t.stack) := by
  cases e <;> rfl

/-- The status after an event. -/
theorem status_step (lzo : Lzo) (hashCombine : UInt64 → UInt64 → UInt64) (t : ThreadState)
    (e : ThreadEvent) : (t.step lzo hashCombine e).tls.status =
    match e.event t.stack with
    | .call c => statusAfter t.tls.status c
    | .background => t.tls.status := by
  rw [tls_step]
  cases e.event t.stack with
  | call c => exact callback_status c
  | background => exact sameLabels_runDump.status

/-- The regions of the frames are different ones, and have been seen. -/
def Known (seen : List OmptId) (stack : List Frame) : Prop :=
  (stack.map fun f => f.par.parallelId).Nodup ∧ ∀ f ∈ stack, f.par.parallelId ∈ seen

section Known

variable {seen : List OmptId} {f g : Frame} {fs : List Frame}

theorem Known.push (h : Known seen fs) (hf : f.par.parallelId ∉ seen) :
    Known (f.par.parallelId :: seen) (f :: fs) := by
  refine ⟨List.nodup_cons.2 ⟨?_, h.1⟩, ?_⟩
  · intro hmem
    obtain ⟨d, hd, hdf⟩ := List.mem_map.1 hmem
    have hid : d.par.parallelId = f.par.parallelId := hdf
    exact hf (hid ▸ h.2 d hd)
  · intro d hd
    rcases List.mem_cons.1 hd with rfl | hd
    · exact List.mem_cons_self
    · exact List.mem_cons_of_mem _ (h.2 d hd)

theorem Known.tail (h : Known seen (f :: fs)) : Known seen fs :=
  ⟨(List.nodup_cons.1 h.1).2, fun d hd => h.2 d (List.mem_cons_of_mem _ hd)⟩

/-- The frame on top becomes another one of its region. -/
theorem Known.retop (h : Known seen (f :: fs)) (hg : g.par.parallelId = f.par.parallelId) :
    Known seen (g :: fs) := by
  refine ⟨?_, fun d hd => ?_⟩
  · rw [List.map_cons, hg]
    exact h.1
  · rcases List.mem_cons.1 hd with rfl | hd
    · exact hg ▸ h.2 f List.mem_cons_self
    · exact h.2 d (List.mem_cons_of_mem _ hd)

end Known

theorem Nest.known_step (h : Nest t) {e : ThreadEvent} (hwf : WellNested t e) :
    Known (t.step lzo hashCombine e).seen (t.step lzo hashCombine e).stack := by
  have hk : Known t.seen t.stack := ⟨h.nodup, h.seen⟩
  cases e with
  | parallelBegin pid threadNum teamSize =>
    have hid := newRegion_parallelId (t := t) pid threadNum teamSize
    have hpush := hk.push (f := .encountered (t.newRegion pid threadNum teamSize))
      (fun hmem => hwf.1 (hid ▸ hmem))
    show Known (pid :: t.seen) (.encountered (t.newRegion pid threadNum teamSize) :: t.stack)
    rwa [Frame.par, hid] at hpush
  | parallelEnd =>
    obtain ⟨par, fs, hs⟩ := hwf
    show Known t.seen t.stack.tail
    rw [hs] at hk ⊢
    exact hk.tail
  | taskBegin teamSize threadNum =>
    obtain ⟨par, fs, hs⟩ := hwf
    show Known t.seen (.task (top t.stack) true :: t.stack.tail)
    rw [hs] at hk ⊢
    exact hk.retop rfl
  | workerTaskBegin par teamSize threadNum => exact hk.push (f := .task par false) hwf.2.1
  | taskEnd =>
    obtain ⟨par, own, fs, hs⟩ := hwf
    show Known t.seen (popTask t.stack)
    rw [hs] at hk ⊢
    cases own with
    | true => exact hk.retop rfl
    | false => exact hk.tail
  | _ => exact hk

theorem Nest.levels_step (h : Nest t) {e : ThreadEvent} (hwf : WellNested t e) :
    LevelsOk (t.step lzo hashCombine e).tls.status (t.step lzo hashCombine e).stack := by
  have hstatus := status_step lzo hashCombine t e
  have hl := h.levels
  cases e with
  | parallelBegin pid threadNum teamSize =>
    refine ⟨hstatus.trans (newRegion_level pid threadNum teamSize).symm, ?_⟩
    rw [hstatus]
    simpa [statusAfter, ThreadEvent.event] using hl
  | parallelEnd =>
    obtain ⟨par, fs, hs⟩ := hwf
    show LevelsOk _ t.stack.tail
    rw [hs] at hl
    rw [hstatus, hs]
    exact hl
  | taskBegin teamSize threadNum =>
    obtain ⟨par, fs, hs⟩ := hwf
    show LevelsOk _ (.task (top t.stack) true :: t.stack.tail)
    rw [hs] at hl
    have hst : (t.step lzo hashCombine (.taskBegin teamSize threadNum)).tls.status =
        t.tls.status := by
      rw [hstatus]
      show (top t.stack).level = _
      rw [hs]
      exact hl.1.symm
    rw [hst, hs]
    exact hl
  | workerTaskBegin par teamSize threadNum =>
    obtain ⟨hs, -, hlevel⟩ := hwf
    refine ⟨hstatus, ?_, hs⟩
    rw [hstatus]
    exact hlevel
  | taskEnd =>
    obtain ⟨par, own, fs, hs⟩ := hwf
    have hst : (t.step lzo hashCombine .taskEnd).tls.status = t.tls.status - 1 := hstatus
    show LevelsOk _ (popTask t.stack)
    rw [hs] at hl
    rw [hst, hs]
    cases own with
    | true => exact hl.2
    | false =>
      obtain ⟨-, hpos, rfl⟩ := hl
      show 0 ≤ t.tls.status - 1
      omega
  | _ => exact hstatus.symm ▸ hl

/-- **One event** keeps the stack nested. -/
theorem Nest.step (h : Nest t) {e : ThreadEvent} (hwf : WellNested t e) :
    Nest (t.step lzo hashCombine e) :=
  ⟨h.levels_step hwf, (h.known_step hwf).1, (h.known_step hwf).2⟩

/-- What an event leaves on the stack: what was there, a frame of a new region, the task of a
region that has been encountered, or a region whose task has ended. -/
theorem mem_stack_step {e : ThreadEvent} (hwf : WellNested t e) {f : Frame}
    (hf : f ∈ (t.step lzo hashCombine e).stack) :
    f ∈ t.stack ∨ f.par.parallelId ∉ t.seen ∨
      (∃ par, f = .task par true ∧ .encountered par ∈ t.stack) ∨ ∃ par, f = .finished par := by
  cases e with
  | parallelBegin pid threadNum teamSize =>
    rcases List.mem_cons.1 hf with rfl | hf
    · refine Or.inr (Or.inl ?_)
      rw [Frame.par, newRegion_parallelId]
      exact hwf.1
    · exact Or.inl hf
  | parallelEnd => exact Or.inl (List.mem_of_mem_tail hf)
  | taskBegin teamSize threadNum =>
    obtain ⟨par, fs, hs⟩ := hwf
    rcases List.mem_cons.1 hf with rfl | hf
    · exact Or.inr (Or.inr (Or.inl ⟨top t.stack, rfl, by simp [hs, top, Frame.par]⟩))
    · exact Or.inl (List.mem_of_mem_tail hf)
  | workerTaskBegin par teamSize threadNum =>
    rcases List.mem_cons.1 hf with rfl | hf
    · exact Or.inr (Or.inl hwf.2.1)
    · exact Or.inl hf
  | taskEnd =>
    obtain ⟨par, own, fs, hs⟩ := hwf
    have hf : f ∈ popTask t.stack := hf
    rw [hs] at hf ⊢
    cases own with
    | true =>
      rcases List.mem_cons.1 hf with rfl | hf
      · exact Or.inr (Or.inr (Or.inr ⟨par, rfl⟩))
      · exact Or.inl (List.mem_cons_of_mem _ hf)
    | false => exact Or.inl (List.mem_cons_of_mem _ hf)
  | _ => exact Or.inl hf

theorem seen_subset_step (e : ThreadEvent) : t.seen ⊆ (t.step lzo hashCombine e).seen := by
  cases e with
  | parallelBegin pid threadNum teamSize => exact List.subset_cons_self ..
  | workerTaskBegin par teamSize threadNum => exact List.subset_cons_self ..
  | _ => exact List.Subset.refl _

end Rtl
end Sword
