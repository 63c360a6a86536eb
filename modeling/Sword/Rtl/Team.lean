import Sword.Rtl.Metafile

/-!
# Barrier intervals across a team

The barrier number of the runtime is a counter of each thread, reset when the
implicit task of an outermost region begins and bumped whenever a sync region of
any kind does.  Nothing is exchanged between the threads, so whether two accesses
end up under the same number depends on what else their threads did.

* `Member` — a thread of the team of one region, with the number of team barriers
  it has left and, for each access made on behalf of the region, the metafile
  line that will close its segment.
* `TeamEvent` — what happens on it: team barriers, taskwaits, nested regions,
  accesses outside and inside a barrier wait.
* `WellFormed` — what every program does; `Aligned` — the condition on a single
  event: no line is written but by a team barrier, and no access is made inside
  the wait.
* `MemberInv` — the barrier number is the number the region was entered with plus
  the number of team barriers entered.
* `intervals_agree` — in every interleaving whose events are aligned, two accesses
  are recorded under the same region and barrier number exactly if no team
  barrier separates them.
-/

namespace Sword
namespace Rtl

/-! ## A thread of the team -/

/-- An access made on behalf of the region: the number of the metafile line that
closes its segment, and the number of team barriers its thread had left. -/
structure Made where
  line : Nat
  phase : Nat
  deriving DecidableEq, Repr

/-- A thread of the team. -/
structure Member where
  tls : Tls
  /-- The implicit task of the region has begun. -/
  entered : Bool := false
  /-- The thread waits inside a team barrier. -/
  waiting : Bool := false
  /-- The team barriers the thread has left. -/
  phase : Nat := 0
  /-- The accesses made on behalf of the region. -/
  accesses : List Made := []

/-- What happens on a thread of the team.  The end of a sync region other than a
team barrier changes nothing and is left out. -/
inductive TeamEvent
  | taskBegin (teamSize threadNum : UInt32)
  | access (asize : AccessSize) (atype : AccessType) (addr callerpc : UInt64)
  | mutexAcquired (kind : UInt32) (waitId : UInt64)
  | mutexReleased (kind : UInt32) (waitId : UInt64)
  | barrierBegin
  | barrierEnd
  | taskSync (kind : SyncRegionKind)
  | nested (c : Callback)
  | background

/-- The event of the runtime behind it; `par` is the data of the region. -/
def TeamEvent.event (par : ParallelData) : TeamEvent → Event
  | .taskBegin teamSize threadNum => .call (.implicitTaskBegin par teamSize threadNum)
  | .access asize atype addr callerpc => .call (.access asize atype addr callerpc)
  | .mutexAcquired kind waitId => .call (.mutexAcquired kind waitId)
  | .mutexReleased kind waitId => .call (.mutexReleased kind waitId)
  | .barrierBegin => .call (.syncRegionBegin .barrier par)
  | .barrierEnd => .call .syncRegionEnd
  | .taskSync kind => .call (.syncRegionBegin kind par)
  | .nested c => .call c
  | .background => .background

section Machine

variable (lzo : Lzo) (hashCombine : UInt64 → UInt64 → UInt64) (par : ParallelData)

/-- One event on a thread of the team. -/
def Member.step (m : Member) (e : TeamEvent) : Member :=
  let m' := { m with tls := Rtl.step lzo hashCombine m.tls (e.event par) }
  match e with
  | .taskBegin _ _ => { m' with entered := true }
  | .access _ _ _ _ => { m' with accesses := m.accesses ++ [⟨m.tls.metafile.length, m.phase⟩] }
  | .barrierBegin => { m' with waiting := true }
  | .barrierEnd => { m' with waiting := false, phase := m.phase + 1 }
  | _ => m'

variable {ι : Type} [DecidableEq ι]

/-- A run of the team, in any interleaving, from any state of its threads. -/
def teamRun (init : ι → Tls) (es : List (ι × TeamEvent)) : ι → Member :=
  Run.exec (Run.each (Member.step lzo hashCombine par)) (fun t => { tls := init t }) es

/-- Every event of a run meets a condition on the thread it happens on. -/
def TeamGuarded (cond : Member → TeamEvent → Prop) (init : ι → Tls)
    (es : List (ι × TeamEvent)) : Prop :=
  Run.Guarded (Run.each (Member.step lzo hashCombine par)) (Run.OnEach cond)
    (fun t => { tls := init t }) es

end Machine

/-! ## What is recorded -/

/-- The region and the barrier number an access is recorded under, once its line
is written. -/
def recordedUnder (m : Member) (a : Made) : Option (OmptId × Nat) :=
  m.tls.metafile[a.line]?.map fun l => (l.parallelId, l.bid)

/-- Two recorded accesses are under the same region and barrier number exactly if
no team barrier separates them. -/
def IntervalsAgree {ι : Type} (team : ι → Member) : Prop :=
  ∀ t u, ∀ a ∈ (team t).accesses, ∀ b ∈ (team u).accesses, ∀ la lb,
    recordedUnder (team t) a = some la → recordedUnder (team u) b = some lb →
      (la = lb ↔ a.phase = b.phase)

/-! ## The conditions on an event -/

/-- What every program does: the implicit task begins first, the two ends of a
barrier alternate, and a nested region has another number and another level. -/
def WellFormed (par : ParallelData) (m : Member) : TeamEvent → Prop
  | .taskBegin _ _ => m.entered = false
  | .access _ _ _ _ => m.entered = true
  | .mutexAcquired _ _ => m.entered = true
  | .mutexReleased _ _ => m.entered = true
  | .barrierBegin => m.entered = true ∧ m.waiting = false
  | .barrierEnd => m.entered = true ∧ m.waiting = true
  | .taskSync kind => m.entered = true ∧ kind ≠ .barrier
  | .nested c => m.entered = true ∧
      ∀ p, lineOf c = some p → p.parallelId ≠ par.parallelId ∧ p.level ≠ 1
  | .background => True

/-- The condition: all threads enter the region with the barrier number `bid`, which
an outermost region resets to zero; no access is made inside a barrier wait; no
task synchronisation takes place, nor a barrier of a nested region. -/
def Aligned (par : ParallelData) (bid : Nat) (m : Member) : TeamEvent → Prop
  | .taskBegin _ _ => (par.level = 1 ∧ bid = 0) ∨ (par.level ≠ 1 ∧ m.tls.bid = bid)
  | .access _ _ _ _ => m.waiting = false
  | .taskSync _ => False
  | .nested c => ∀ kind p, c ≠ .syncRegionBegin kind p
  | _ => True

/-! ## The invariant -/

variable {lzo : Lzo} {hashCombine : UInt64 → UInt64 → UInt64} {par : ParallelData} {bid : Nat}
  {m : Member}

/-- The barrier number of a thread is the one it entered with plus the number of
team barriers it has entered; an access made before the barrier it waits in or
will enter next is recorded, or will be, under the number its phase tells. -/
structure MemberInv (par : ParallelData) (bid : Nat) (m : Member) : Prop where
  outside : m.entered = false → m.accesses = [] ∧ m.waiting = false ∧ m.phase = 0
  bid_eq : m.entered = true → m.tls.bid = bid + m.phase + if m.waiting then 1 else 0
  accesses : ∀ a ∈ m.accesses,
    (∃ l, m.tls.metafile[a.line]? = some l ∧ l.parallelId = par.parallelId ∧
      l.bid = bid + a.phase) ∨
    (a.line = m.tls.metafile.length ∧ a.phase = m.phase ∧ m.waiting = false)

theorem memberInv_init (s : Tls) : MemberInv par bid { tls := s } :=
  ⟨fun _ => ⟨rfl, rfl, rfl⟩, fun h => (Bool.false_ne_true h).elim,
    fun _ ha => (List.not_mem_nil ha).elim⟩

/-- An event that neither writes a line nor changes the phase. -/
theorem MemberInv.same (h : MemberInv par bid m) {s : Tls} (hm : s.metafile = m.tls.metafile)
    (hb : s.bid = m.tls.bid) : MemberInv par bid { m with tls := s } :=
  ⟨h.outside, fun he => hb.trans (h.bid_eq he), fun a ha => by rw [hm]; exact h.accesses a ha⟩

/-- A step that makes no access and changes neither the phase nor the flags. -/
theorem MemberInv.call (h : MemberInv par bid m) {c : Callback} (hc : lineOf c = none) :
    MemberInv par bid { m with tls := Rtl.step lzo hashCombine m.tls (.call c) } :=
  h.same (callback_of_lineOf_none hc).1 (callback_of_lineOf_none hc).2

/-- The first event on a thread. -/
theorem MemberInv.taskBegin (h : MemberInv par bid m) {teamSize threadNum : UInt32}
    (hwf : WellFormed par m (.taskBegin teamSize threadNum))
    (hal : Aligned par bid m (.taskBegin teamSize threadNum)) :
    MemberInv par bid (m.step lzo hashCombine par (.taskBegin teamSize threadNum)) := by
  obtain ⟨hacc, hwait, hphase⟩ := h.outside hwf
  have hnone : ∀ a ∈ m.accesses, False := by rw [hacc]; simp
  refine ⟨fun he => Bool.noConfusion he, fun _ => ?_, fun a ha => (hnone a ha).elim⟩
  show (callback lzo hashCombine m.tls (.implicitTaskBegin par teamSize threadNum)).bid =
    bid + m.phase + if m.waiting then 1 else 0
  rw [hphase, hwait]
  rcases hal with ⟨hlevel, rfl⟩ | ⟨hlevel, hbid⟩
  · obtain ⟨l, -, -, -, hb⟩ := callback_of_lineOf_some lzo hashCombine m.tls
      (c := .implicitTaskBegin par teamSize threadNum) (if_pos hlevel)
    exact hb
  · rw [(callback_of_lineOf_none (c := .implicitTaskBegin par teamSize threadNum)
      (if_neg hlevel)).2]
    exact hbid

/-- An access is pending until the next line is written. -/
theorem MemberInv.access (h : MemberInv par bid m) {asize : AccessSize} {atype : AccessType}
    {addr callerpc : UInt64} (hwf : WellFormed par m (.access asize atype addr callerpc))
    (hal : Aligned par bid m (.access asize atype addr callerpc)) :
    MemberInv par bid (m.step lzo hashCombine par (.access asize atype addr callerpc)) := by
  have hcall : MemberInv par bid { m with
      tls := Rtl.step lzo hashCombine m.tls (.call (.access asize atype addr callerpc)) } :=
    h.call rfl
  have hmeta : (callback lzo hashCombine m.tls (.access asize atype addr callerpc)).metafile =
    m.tls.metafile := (callback_of_lineOf_none rfl).1
  refine ⟨fun he => ?_, hcall.bid_eq, fun a ha => ?_⟩
  · exact Bool.noConfusion (hwf.symm.trans he)
  · rcases List.mem_append.1 ha with ha | ha
    · exact hcall.accesses a ha
    · obtain rfl := List.mem_singleton.1 ha
      exact Or.inr ⟨congrArg List.length hmeta.symm, rfl, hal⟩

/-- The line a barrier writes closes the segment of the pending accesses. -/
theorem MemberInv.barrierBegin (h : MemberInv par bid m) (hwf : WellFormed par m .barrierBegin) :
    MemberInv par bid (m.step lzo hashCombine par .barrierBegin) := by
  obtain ⟨hent, hwait⟩ := hwf
  obtain ⟨l, hmeta, hpid, hlbid, hb⟩ := callback_of_lineOf_some lzo hashCombine m.tls
    (c := .syncRegionBegin .barrier par) rfl
  have hbid := h.bid_eq hent
  rw [hwait] at hbid
  refine ⟨fun he => ?_, fun _ => ?_, fun a ha => Or.inl ?_⟩
  · exact Bool.noConfusion (hent.symm.trans he)
  · show (callback lzo hashCombine m.tls (.syncRegionBegin .barrier par)).bid = bid + m.phase + 1
    rw [hb]
    exact congrArg (· + 1) hbid
  · show ∃ l, (callback lzo hashCombine m.tls (.syncRegionBegin .barrier par)).metafile[a.line]? =
      some l ∧ l.parallelId = par.parallelId ∧ l.bid = bid + a.phase
    rw [hmeta]
    rcases h.accesses a ha with ⟨k, hk, hkpid, hkbid⟩ | ⟨hline, hphase, -⟩
    · have hlt := (List.getElem?_eq_some_iff.1 hk).1
      exact ⟨k, by rw [List.getElem?_append_left hlt]; exact hk, hkpid, hkbid⟩
    · refine ⟨l, by rw [hline]; simp, hpid, ?_⟩
      rw [hlbid, hphase]
      exact hbid

theorem MemberInv.barrierEnd (h : MemberInv par bid m) (hwf : WellFormed par m .barrierEnd) :
    MemberInv par bid (m.step lzo hashCombine par .barrierEnd) := by
  obtain ⟨hent, hwait⟩ := hwf
  have hbid := h.bid_eq hent
  rw [hwait] at hbid
  refine ⟨fun he => ?_, fun _ => ?_, fun a ha => Or.inl ?_⟩
  · exact Bool.noConfusion (hent.symm.trans he)
  · show m.tls.bid = bid + (m.phase + 1) + 0
    rw [hbid]
    simp only [if_true]
    omega
  · rcases h.accesses a ha with hl | ⟨-, -, hw⟩
    · exact hl
    · rw [hwait] at hw
      cases hw

/-- An aligned event of a nested region writes no line. -/
theorem lineOf_nested {c : Callback} (hwf : WellFormed par m (.nested c))
    (hal : Aligned par bid m (.nested c)) : lineOf c = none := by
  cases hc : lineOf c with
  | none => rfl
  | some p =>
    obtain ⟨-, hlevel⟩ := hwf.2 p hc
    cases c with
    | implicitTaskBegin p' teamSize threadNum =>
      have hif : (if p'.level = 1 then some p' else none) = some p := hc
      split at hif
      · rename_i h1
        obtain rfl := Option.some.inj hif
        exact absurd h1 hlevel
      · cases hif
    | syncRegionBegin kind p' => exact absurd rfl (hal kind p')
    | _ => cases hc

/-- **The step law.** -/
theorem MemberInv.step (h : MemberInv par bid m) {e : TeamEvent} (hwf : WellFormed par m e)
    (hal : Aligned par bid m e) : MemberInv par bid (m.step lzo hashCombine par e) := by
  cases e with
  | taskBegin teamSize threadNum => exact h.taskBegin hwf hal
  | access asize atype addr callerpc => exact h.access hwf hal
  | mutexAcquired kind waitId => exact h.call rfl
  | mutexReleased kind waitId => exact h.call rfl
  | barrierBegin => exact h.barrierBegin hwf
  | barrierEnd => exact h.barrierEnd hwf
  | taskSync kind => exact hal.elim
  | nested c => exact h.call (lineOf_nested hwf hal)
  | background => exact h.same sameLabels_runDump.metafile sameLabels_runDump.bid

theorem MemberInv.recordedUnder (h : MemberInv par bid m) {a : Made} (ha : a ∈ m.accesses)
    {la : OmptId × Nat} (hla : recordedUnder m a = some la) :
    la = (par.parallelId, bid + a.phase) := by
  rw [Rtl.recordedUnder] at hla
  rcases h.accesses a ha with ⟨l, hl, hpid, hbid⟩ | ⟨hline, -, -⟩
  · rw [hl] at hla
    obtain rfl := Option.some.inj hla
    exact Prod.ext hpid hbid
  · rw [hline] at hla
    simp at hla

/-- **Barrier intervals.**  In every run of a team, in any interleaving and from any
state of its threads, in which every event is aligned, two accesses are recorded
under the same region and barrier number exactly if no team barrier separates
them. -/
theorem intervals_agree {ι : Type} [DecidableEq ι] (lzo : Lzo)
    (hashCombine : UInt64 → UInt64 → UInt64) (par : ParallelData) (bid : Nat) (init : ι → Tls)
    (es : List (ι × TeamEvent))
    (hwf : TeamGuarded lzo hashCombine par (WellFormed par) init es)
    (hal : TeamGuarded lzo hashCombine par (Aligned par bid) init es) :
    IntervalsAgree (teamRun lzo hashCombine par init es) := by
  have hboth : TeamGuarded lzo hashCombine par
      (fun m e => WellFormed par m e ∧ Aligned par bid m e) init es :=
    Run.guarded_and.2 ⟨hwf, hal⟩
  have hinv : ∀ t, MemberInv par bid (teamRun lzo hashCombine par init es t) :=
    Run.invariant_each (fun m e hm hc => hm.step hc.1 hc.2) (fun t => memberInv_init (init t)) hboth
  intro t u a ha b hb la lb hla hlb
  rw [(hinv t).recordedUnder ha hla, (hinv u).recordedUnder hb hlb]
  simp

/-! ## Two threads -/

/-- An outermost region. -/
def outermost : ParallelData := ⟨0, 7, 0, 1, 0, 2⟩

/-- Two threads write on either side of a barrier. -/
def barrierRun : List (Bool × TeamEvent) :=
  [(false, .taskBegin 2 0), (true, .taskBegin 2 1), (false, .access .size4 .unsafeWrite 4096 64),
    (false, .barrierBegin), (true, .barrierBegin), (false, .barrierEnd), (true, .barrierEnd),
    (true, .access .size4 .unsafeWrite 4096 80), (true, .barrierBegin), (false, .barrierBegin)]

theorem intervals_agree_barrierRun :
    IntervalsAgree (teamRun Lzo.stored boostHashCombine outermost (fun _ => onThreadBegin)
      barrierRun) := by
  refine intervals_agree Lzo.stored boostHashCombine outermost 0 (fun _ => onThreadBegin)
    barrierRun ?_ ?_
  · simp [TeamGuarded, barrierRun, Run.Guarded, Run.each, Run.OnEach, WellFormed, Member.step]
  · simp [TeamGuarded, barrierRun, Run.Guarded, Run.each, Run.OnEach, Aligned, Member.step,
      outermost]

/-- One of two threads executes a taskwait before both write. -/
def taskwaitRun : List (Bool × TeamEvent) :=
  [(false, .taskBegin 2 0), (true, .taskBegin 2 1), (false, .taskSync .taskwait),
    (false, .access .size4 .unsafeWrite 4096 64), (true, .access .size4 .unsafeWrite 4096 64),
    (false, .barrierBegin), (true, .barrierBegin)]

/-- The two writes are recorded under different barrier numbers, though no barrier
separates them. -/
theorem taskwaitRun_not_agree :
    TeamGuarded Lzo.stored boostHashCombine outermost (WellFormed outermost)
        (fun _ => onThreadBegin) taskwaitRun ∧
      ¬ IntervalsAgree (teamRun Lzo.stored boostHashCombine outermost (fun _ => onThreadBegin)
        taskwaitRun) := by
  constructor
  · simp [TeamGuarded, taskwaitRun, Run.Guarded, Run.each, Run.OnEach, WellFormed, Member.step]
  · intro h
    have hiff := h false true ⟨2, 0⟩ (List.mem_singleton_self _) ⟨1, 0⟩ (List.mem_singleton_self _)
      (7, 1) (7, 0) rfl rfl
    exact absurd (hiff.2 rfl) (by decide)

end Rtl
end Sword
