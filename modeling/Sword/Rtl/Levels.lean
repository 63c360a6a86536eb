import Sword.Rtl.Nesting

/-!
# The nesting level across threads

The function-entry test inserted by the compiler runs the instrumented clone of a function if
`__sword_status__` is 1.  The variable belongs to a thread: it is incremented where a
region is encountered, overwritten from the region's data where a task begins, and
decremented where a task ends; nothing resets it between the regions a pool thread works
for.

* `Threads`, `Threads.step` — the threads, with the level of every region as a history
  variable.
* `TeamNested` — the order events come in, over all threads.
* `StatusOk`, `Leveled` — what holds of one thread's stack, and of all threads.
* `Leveled.step`, `leveled_exec` — the invariant of all histories.
* `status_is_level` — inside a task the status is the level of its region, and outside all
  regions it is 0 on the initial thread.
-/

namespace Sword
namespace Rtl

open Run

/-! ## Threads -/

/-- The test inserted at the entry of a function: `__sword_status__ == 1`. -/
def entryTest (s : Tls) : Bool := s.status == 1

/-- The threads, and the level of the regions encountered so far, which is a history
variable: nothing reads it. -/
structure Threads (ι : Type) where
  thread : ι → ThreadState := fun _ => {}
  level : OmptId → ℕ := fun _ => 0

/-- How many regions the code is nested in that runs on top of this stack. -/
def nestingLevel (level : OmptId → ℕ) (stack : List Frame) : ℕ :=
  match innermost stack with
  | none => 0
  | some par => level par.parallelId

variable {ι : Type} [DecidableEq ι]

/-- An event on one of the threads.  A region's level is one above that of the task that
encounters it. -/
def Threads.step (lzo : Lzo) (hashCombine : UInt64 → UInt64 → UInt64) (w : Threads ι)
    (e : ι × ThreadEvent) : Threads ι where
  thread := Function.update w.thread e.1 ((w.thread e.1).step lzo hashCombine e.2)
  level :=
    match e.2 with
    | .parallelBegin pid _ _ =>
      Function.update w.level pid (nestingLevel w.level (w.thread e.1).stack + 1)
    | _ => w.level

/-- The region is open on the thread that has encountered it. -/
def Opens (stack : List Frame) (par : ParallelData) : Prop :=
  .encountered par ∈ stack ∨ .task par true ∈ stack ∨ .finished par ∈ stack

/-- The order events come in.  A region is encountered inside a task, or by the initial thread
outside all regions, and gets a new number; a worker is another thread that has nothing on
its stack, and it works for a region that is open on some thread. -/
def TeamNested (initial : ι) (w : Threads ι) (e : ι × ThreadEvent) : Prop :=
  match e.2 with
  | .parallelBegin pid _ _ => (∀ i, pid ∉ (w.thread i).seen) ∧
      ((w.thread e.1).stack = [] ∧ e.1 = initial ∨
        ∃ par own fs, (w.thread e.1).stack = .task par own :: fs)
  | .workerTaskBegin par _ _ => (w.thread e.1).stack = [] ∧ e.1 ≠ initial ∧
      ∃ i, Opens (w.thread i).stack par
  | event => WellNested (w.thread e.1) event

/-! ## One thread -/

/-- The status over a stack is the level of the innermost region whose task has begun or is
about to, and every own region is one above what it was encountered in. -/
def StatusOk (level : OmptId → ℕ) (isInitial : Prop) : Int → List Frame → Prop
  | status, [] => isInitial → status = 0
  | status, .encountered par :: fs =>
    status = level par.parallelId ∧ StatusOk level isInitial (status - 1) fs
  | status, .task par true :: fs =>
    status = level par.parallelId ∧ StatusOk level isInitial (status - 1) fs
  | status, .task par false :: fs => status = level par.parallelId ∧ ¬ isInitial ∧ fs = []
  | status, .finished _ :: fs => StatusOk level isInitial status fs

/-- What holds of a thread. -/
structure ThreadOk (level : OmptId → ℕ) (isInitial : Prop) (t : ThreadState) : Prop where
  status : StatusOk level isInitial t.tls.status t.stack
  level : ∀ f ∈ t.stack, f.par.level = level f.par.parallelId
  seen : ∀ f ∈ t.stack, f.par.parallelId ∈ t.seen

variable {level level' : OmptId → ℕ} {isInitial : Prop} {t : ThreadState} {lzo : Lzo}
  {hashCombine : UInt64 → UInt64 → UInt64}

/-- Only the levels of the regions on the stack matter. -/
theorem StatusOk.congr {status : Int} {stack : List Frame}
    (heq : ∀ f ∈ stack, level' f.par.parallelId = level f.par.parallelId)
    (h : StatusOk level isInitial status stack) : StatusOk level' isInitial status stack := by
  induction stack generalizing status with
  | nil => exact h
  | cons f fs ih =>
    have hf := heq f List.mem_cons_self
    have ih : ∀ {status}, StatusOk level isInitial status fs →
        StatusOk level' isInitial status fs := fun h =>
      ih (fun g hg => heq g (List.mem_cons_of_mem _ hg)) h
    cases f with
    | encountered par => exact ⟨h.1.trans (congrArg _ hf.symm), ih h.2⟩
    | task par own =>
      cases own with
      | true => exact ⟨h.1.trans (congrArg _ hf.symm), ih h.2⟩
      | false => exact ⟨h.1.trans (congrArg _ hf.symm), h.2⟩
    | finished par => exact ih h

theorem ThreadOk.congr (heq : ∀ f ∈ t.stack, level' f.par.parallelId = level f.par.parallelId)
    (h : ThreadOk level isInitial t) : ThreadOk level' isInitial t where
  status := h.status.congr heq
  level f hf := (h.level f hf).trans (congrArg _ (heq f hf).symm)
  seen := h.seen

/-- Where a region can be encountered, the status is the level of the code there. -/
theorem StatusOk.eq_nestingLevel {status : Int} {stack : List Frame}
    (h : StatusOk level isInitial status stack)
    (hpos : stack = [] ∧ isInitial ∨ ∃ par own fs, stack = .task par own :: fs) :
    status = nestingLevel level stack := by
  rcases hpos with ⟨rfl, hinit⟩ | ⟨par, own, fs, rfl⟩
  · exact h hinit
  · cases own with
    | true => exact h.1
    | false => exact h.1

/-- A region is encountered. -/
theorem ThreadOk.parallelBegin (h : ThreadOk level isInitial t) {pid : OmptId}
    {threadNum teamSize : UInt32} (hnew : pid ∉ t.seen)
    (hpos : t.stack = [] ∧ isInitial ∨ ∃ par own fs, t.stack = .task par own :: fs) :
    ThreadOk (Function.update level pid (nestingLevel level t.stack + 1)) isInitial
      (t.step lzo hashCombine (.parallelBegin pid threadNum teamSize)) := by
  have hstatus : (t.step lzo hashCombine (.parallelBegin pid threadNum teamSize)).tls.status =
      t.tls.status + 1 := status_step lzo hashCombine t (.parallelBegin pid threadNum teamSize)
  have hid := newRegion_parallelId (t := t) pid threadNum teamSize
  have hlevel := newRegion_level (t := t) pid threadNum teamSize
  have hnest := h.status.eq_nestingLevel hpos
  -- the regions on the stack are other ones
  have hold : ThreadOk (Function.update level pid (nestingLevel level t.stack + 1)) isInitial t :=
    h.congr fun f hf =>
      Function.update_of_ne (fun heq : f.par.parallelId = pid => hnew (heq ▸ h.seen f hf)) _ _
  refine ⟨?_, ?_, ?_⟩
  · show StatusOk _ _ _ (.encountered (t.newRegion pid threadNum teamSize) :: t.stack)
    refine ⟨?_, ?_⟩
    · rw [hstatus, hid, Function.update_self, hnest]
      rfl
    · rw [hstatus, add_sub_cancel_right]
      exact hold.status
  · intro f hf
    rcases List.mem_cons.1 hf with rfl | hf
    · rw [Frame.par, hlevel, hid, Function.update_self, hnest]
      rfl
    · exact hold.level f hf
  · intro f hf
    rcases List.mem_cons.1 hf with rfl | hf
    · rw [Frame.par, hid]
      exact List.mem_cons_self
    · exact List.mem_cons_of_mem _ (h.seen f hf)

/-- A task begins of a region encountered by another thread. -/
theorem ThreadOk.workerTaskBegin {par : ParallelData} {teamSize threadNum : UInt32}
    (hs : t.stack = []) (hinit : ¬ isInitial) (hpar : par.level = level par.parallelId) :
    ThreadOk level isInitial
      (t.step lzo hashCombine (.workerTaskBegin par teamSize threadNum)) := by
  have hstatus : (t.step lzo hashCombine (.workerTaskBegin par teamSize threadNum)).tls.status =
      par.level := status_step lzo hashCombine t (.workerTaskBegin par teamSize threadNum)
  have hstack : (t.step lzo hashCombine (.workerTaskBegin par teamSize threadNum)).stack =
      [.task par false] := congrArg _ hs
  refine ⟨?_, ?_, ?_⟩
  · rw [hstack, hstatus]
    exact ⟨hpar, hinit, rfl⟩
  · rw [hstack]
    intro f hf
    rw [List.mem_singleton.1 hf]
    exact hpar
  · rw [hstack]
    intro f hf
    rw [List.mem_singleton.1 hf]
    exact List.mem_cons_self

/-- The status changes with the stack, and the regions on it are old ones. -/
theorem ThreadOk.of_frames (h : ThreadOk level isInitial t) {t' : ThreadState}
    (hstatus : StatusOk level isInitial t'.tls.status t'.stack)
    (hframes : ∀ f ∈ t'.stack, ∃ g ∈ t.stack, g.par = f.par) (hseen : t'.seen = t.seen) :
    ThreadOk level isInitial t' := by
  refine ⟨hstatus, fun f hf => ?_, fun f hf => ?_⟩
  · obtain ⟨g, hg, heq⟩ := hframes f hf
    exact heq ▸ h.level g hg
  · obtain ⟨g, hg, heq⟩ := hframes f hf
    rw [hseen]
    exact heq ▸ h.seen g hg

/-- A region is ended, or a task of it begins or ends. -/
theorem ThreadOk.step (h : ThreadOk level isInitial t) {e : ThreadEvent}
    (hwf : WellNested t e)
    (hb : ∀ pid threadNum teamSize, e ≠ .parallelBegin pid threadNum teamSize)
    (hw : ∀ par teamSize threadNum, e ≠ .workerTaskBegin par teamSize threadNum) :
    ThreadOk level isInitial (t.step lzo hashCombine e) := by
  have hstatus := status_step lzo hashCombine t e
  have hok := h.status
  cases e with
  | parallelBegin pid threadNum teamSize => exact absurd rfl (hb pid threadNum teamSize)
  | workerTaskBegin par teamSize threadNum => exact absurd rfl (hw par teamSize threadNum)
  | parallelEnd =>
    obtain ⟨par, fs, hs⟩ := hwf
    have hstack : (t.step lzo hashCombine .parallelEnd).stack = fs := congrArg List.tail hs
    rw [hs] at hok
    refine h.of_frames ?_ (fun f hf => ⟨f, ?_, rfl⟩) rfl
    · rw [hstack, hstatus]
      exact hok
    · rw [hs]
      exact List.mem_cons_of_mem _ (hstack ▸ hf)
  | taskBegin teamSize threadNum =>
    obtain ⟨par, fs, hs⟩ := hwf
    have htop : top t.stack = par := by
      rw [hs]
      rfl
    have hstack : (t.step lzo hashCombine (.taskBegin teamSize threadNum)).stack =
        .task par true :: fs := by
      show .task (top t.stack) true :: t.stack.tail = _
      rw [htop, hs]
      rfl
    have hlevel : par.level = level par.parallelId :=
      h.level (.encountered par) (hs ▸ List.mem_cons_self)
    have hstatus : (t.step lzo hashCombine (.taskBegin teamSize threadNum)).tls.status =
        (top t.stack).level := hstatus
    rw [htop, hlevel] at hstatus
    rw [hs] at hok
    refine h.of_frames ?_ (fun f hf => ?_) rfl
    · rw [hstack, hstatus, ← hok.1]
      exact hok
    · rw [hstack] at hf
      rw [hs]
      rcases List.mem_cons.1 hf with rfl | hf
      · exact ⟨_, List.mem_cons_self, rfl⟩
      · exact ⟨f, List.mem_cons_of_mem _ hf, rfl⟩
  | taskEnd =>
    obtain ⟨par, own, fs, hs⟩ := hwf
    have hstatus : (t.step lzo hashCombine .taskEnd).tls.status = t.tls.status - 1 := hstatus
    have hstack : (t.step lzo hashCombine .taskEnd).stack = popTask (.task par own :: fs) :=
      congrArg popTask hs
    rw [hs] at hok
    refine h.of_frames ?_ (fun f hf => ?_) rfl
    · rw [hstack, hstatus]
      cases own with
      | true => exact hok.2
      | false =>
        obtain ⟨-, hinit, rfl⟩ := hok
        exact fun hi => absurd hi hinit
    · rw [hstack] at hf
      rw [hs]
      cases own with
      | true =>
        rcases List.mem_cons.1 hf with rfl | hf
        · exact ⟨_, List.mem_cons_self, rfl⟩
        · exact ⟨f, List.mem_cons_of_mem _ hf, rfl⟩
      | false => exact ⟨f, List.mem_cons_of_mem _ hf, rfl⟩
  | _ => exact ⟨hstatus.symm ▸ hok, h.level, h.seen⟩

/-! ## All threads -/

/-- What holds of the threads between two events. -/
def Leveled (initial : ι) (w : Threads ι) : Prop :=
  ∀ i, ThreadOk w.level (i = initial) (w.thread i)

variable {initial : ι} {w : Threads ι}

omit [DecidableEq ι] in
theorem leveled_init : Leveled initial ({} : Threads ι) :=
  fun _ => ⟨fun _ => rfl, fun _ hf => (List.not_mem_nil hf).elim,
    fun _ hf => (List.not_mem_nil hf).elim⟩

omit [DecidableEq ι] in
/-- The level of a region that is open on some thread. -/
theorem Leveled.level_of_opens (h : Leveled initial w) {i : ι} {par : ParallelData}
    (ho : Opens (w.thread i).stack par) : par.level = w.level par.parallelId := by
  rcases ho with ho | ho | ho
  · exact (h i).level _ ho
  · exact (h i).level _ ho
  · exact (h i).level _ ho

/-- The thread on which the event happens. -/
theorem Leveled.own (h : Leveled initial w) {e : ι × ThreadEvent} (hok : TeamNested initial w e) :
    ThreadOk (w.step lzo hashCombine e).level (e.1 = initial)
      ((w.thread e.1).step lzo hashCombine e.2) := by
  obtain ⟨i, e⟩ := e
  cases e with
  | parallelBegin pid threadNum teamSize =>
    exact (h i).parallelBegin (hok.1 i) hok.2
  | workerTaskBegin par teamSize threadNum =>
    obtain ⟨hs, hinit, j, ho⟩ := hok
    exact ThreadOk.workerTaskBegin hs hinit (h.level_of_opens ho)
  | _ => exact (h i).step hok (fun _ _ _ => by simp) (fun _ _ _ => by simp)

/-- The other threads: the level of no region on their stacks changes. -/
theorem Leveled.other (h : Leveled initial w) {e : ι × ThreadEvent}
    (hok : TeamNested initial w e) (i : ι) :
    ThreadOk (w.step lzo hashCombine e).level (i = initial) (w.thread i) := by
  obtain ⟨j, e⟩ := e
  cases e with
  | parallelBegin pid threadNum teamSize =>
    refine (h i).congr fun f hf => Function.update_of_ne ?_ _ _
    intro heq
    exact hok.1 i (heq ▸ (h i).seen f hf)
  | _ => exact h i

/-- **One event** on any thread. -/
theorem Leveled.step (h : Leveled initial w) {e : ι × ThreadEvent}
    (hok : TeamNested initial w e) : Leveled initial (w.step lzo hashCombine e) := by
  intro i
  by_cases hi : i = e.1
  · subst hi
    have hthread : (w.step lzo hashCombine e).thread e.1 =
        (w.thread e.1).step lzo hashCombine e.2 := Function.update_self ..
    rw [hthread]
    exact h.own hok
  · have hthread : (w.step lzo hashCombine e).thread i = w.thread i :=
      Function.update_of_ne hi _ _
    rw [hthread]
    exact h.other hok i

/-- The state after a history of events on the threads. -/
def levelRun (lzo : Lzo) (hashCombine : UInt64 → UInt64 → UInt64) (es : List (ι × ThreadEvent)) :
    Threads ι := exec (Threads.step lzo hashCombine) {} es

theorem leveled_exec {es : List (ι × ThreadEvent)}
    (hg : Guarded (Threads.step lzo hashCombine) (TeamNested initial) {} es) :
    Leveled initial (levelRun lzo hashCombine es) :=
  invariant_of_guarded (P := Leveled initial) (fun _ _ hs hc => hs.step hc) leveled_init hg

/-- **The status is the level.**  In every history, over any threads and any nesting: while a
thread executes the task of a region its status is the level of the region, so that the
entry test succeeds exactly at level 1; and on the initial thread the status is 0 outside
all regions, and the test fails. -/
theorem status_is_level (lzo : Lzo) (hashCombine : UInt64 → UInt64 → UInt64) (initial : ι)
    (es : List (ι × ThreadEvent))
    (hg : Guarded (Threads.step lzo hashCombine) (TeamNested initial) {} es) :
    (∀ i par own fs, ((levelRun lzo hashCombine es).thread i).stack = .task par own :: fs →
        ((levelRun lzo hashCombine es).thread i).tls.status =
            (levelRun lzo hashCombine es).level par.parallelId ∧
          (entryTest ((levelRun lzo hashCombine es).thread i).tls = true ↔
            (levelRun lzo hashCombine es).level par.parallelId = 1)) ∧
      (((levelRun lzo hashCombine es).thread initial).stack = [] →
        ((levelRun lzo hashCombine es).thread initial).tls.status = 0 ∧
          entryTest ((levelRun lzo hashCombine es).thread initial).tls = false) := by
  have hinv := leveled_exec hg
  constructor
  · intro i par own fs hs
    have hstatus := (hinv i).status
    rw [hs] at hstatus
    have heq : ((levelRun lzo hashCombine es).thread i).tls.status =
        (levelRun lzo hashCombine es).level par.parallelId := by
      cases own with
      | true => exact hstatus.1
      | false => exact hstatus.1
    refine ⟨heq, ?_⟩
    rw [entryTest, heq, beq_iff_eq]
    exact Nat.cast_eq_one
  · intro hs
    have hstatus := (hinv initial).status
    rw [hs] at hstatus
    have heq : ((levelRun lzo hashCombine es).thread initial).tls.status = 0 := hstatus rfl
    refine ⟨heq, ?_⟩
    rw [entryTest, heq]
    rfl

/-- The initial thread encounters a region, and another thread works for it and encounters a
region inside. -/
def nestedTeam : List (ℕ × ThreadEvent) :=
  [(0, .parallelBegin 7 0 2), (0, .taskBegin 2 0), (1, .workerTaskBegin ⟨0, 7, 0, 1, 0, 2⟩ 2 1),
    (1, .parallelBegin 8 1 1), (1, .taskBegin 1 0)]

theorem status_is_level_nestedTeam :
    ((levelRun Lzo.stored (fun _ _ => 0) nestedTeam).thread 1).tls.status =
        (levelRun Lzo.stored (fun _ _ => 0) nestedTeam).level 8 ∧
      (entryTest ((levelRun Lzo.stored (fun _ _ => 0) nestedTeam).thread 1).tls = true ↔
        (levelRun Lzo.stored (fun _ _ => 0) nestedTeam).level 8 = 1) := by
  refine (status_is_level Lzo.stored (fun _ _ => 0) 0 nestedTeam ?_).1 1 ⟨0, 8, 7, 2, 1, 1⟩ true
    [.task ⟨0, 7, 0, 1, 0, 2⟩ false] rfl
  refine ⟨⟨fun _ h => (List.not_mem_nil h).elim, Or.inl ⟨rfl, rfl⟩⟩, ⟨_, _, rfl⟩,
    ⟨rfl, by decide, 0, Or.inr (Or.inl (List.mem_singleton.2 rfl))⟩, ⟨?_, Or.inr ⟨_, _, _, rfl⟩⟩,
    ⟨_, _, rfl⟩, trivial⟩
  -- the two threads have seen region 7 only, and the others none
  intro i
  match i with
  | 0 => exact by decide
  | 1 => exact by decide
  | i + 2 => exact List.not_mem_nil

end Rtl
end Sword
