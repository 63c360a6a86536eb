import Sword.Rtl.Nesting

/-!
# Which range an access is analysed in

`main` of `tools/sword-race-analysis.cc` is run for one region and one barrier
number and takes, from every metafile, the last line with these two.  An access is
analysed under its own region if the line that closes its segment is such a line.

* `traces` — the loop over the lines of a metafile; `selected` — the line it ends
  up with (`traces_eq`).
* `appended` — an access that goes into the buffer, with the region of the
  innermost implicit task and the line that will close its segment.
* `ClosedFor` — the next line the thread writes is one of the region.
* `Live` / `Settled` — what holds of a region before and after the line.
* `covered_iff` — an access is covered by the range selected for its region and
  some barrier number exactly if the next line the thread writes is one of the
  region.
-/

namespace Sword
namespace Tools

open Rtl

/-! ## The selection -/

/-- `struct TraceInfo`. -/
structure TraceInfo where
  fileOffsetBegin : Nat
  fileOffsetEnd : Nat
  deriving DecidableEq, Repr

/-- The loop over the lines of a metafile: every line with the region and the
barrier number of the run overwrites `traces[tid]`. -/
def traces (pregion : OmptId) (barrierId : Nat) (metafile : List MetaLine) : Option TraceInfo :=
  metafile.foldl (fun info l =>
    if pregion = l.parallelId ∧ barrierId = l.bid then
      some ⟨l.fileOffsetBegin, l.fileOffsetEnd⟩ else info) none

/-- The line the loop ends up with. -/
def selected (pregion : OmptId) (barrierId : Nat) : List MetaLine → Option Nat
  | [] => none
  | l :: ls =>
    match selected pregion barrierId ls with
    | some k => some (k + 1)
    | none => if pregion = l.parallelId ∧ barrierId = l.bid then some 0 else none

/-- The range stored is that of the line selected. -/
theorem traces_eq (pregion : OmptId) (barrierId : Nat) (metafile : List MetaLine) :
    traces pregion barrierId metafile = (selected pregion barrierId metafile).bind fun k =>
      metafile[k]?.map fun l => ⟨l.fileOffsetBegin, l.fileOffsetEnd⟩ := by
  have hfold : ∀ (ls : List MetaLine) (info : Option TraceInfo),
      ls.foldl (fun info l => if pregion = l.parallelId ∧ barrierId = l.bid then
        some ⟨l.fileOffsetBegin, l.fileOffsetEnd⟩ else info) info =
      match selected pregion barrierId ls with
      | some k => ls[k]?.map fun l => ⟨l.fileOffsetBegin, l.fileOffsetEnd⟩
      | none => info := by
    intro ls
    induction ls with
    | nil => exact fun _ => rfl
    | cons l ls ih =>
      intro info
      rw [List.foldl_cons, ih, selected]
      cases selected pregion barrierId ls with
      | some k => rfl
      | none =>
        dsimp only
        split <;> rfl
  rw [traces, hfold]
  cases selected pregion barrierId metafile <;> rfl

theorem selected_eq_none_iff {pregion : OmptId} {barrierId : Nat} {metafile : List MetaLine} :
    selected pregion barrierId metafile = none ↔
      ∀ l ∈ metafile, ¬ (pregion = l.parallelId ∧ barrierId = l.bid) := by
  induction metafile with
  | nil => simp [selected]
  | cons l ls ih =>
    rw [selected, List.forall_mem_cons, ← ih]
    cases selected pregion barrierId ls <;> simp

/-- The last line with the region and the barrier number. -/
theorem selected_eq_some_iff {pregion : OmptId} {barrierId k : Nat} {metafile : List MetaLine} :
    selected pregion barrierId metafile = some k ↔
      (∃ l, metafile[k]? = some l ∧ l.parallelId = pregion ∧ l.bid = barrierId) ∧
        ∀ j l, k < j → metafile[j]? = some l → l.parallelId = pregion → l.bid ≠ barrierId := by
  induction metafile generalizing k with
  | nil => simp [selected]
  | cons l ls ih =>
    rw [selected]
    cases hsel : selected pregion barrierId ls with
    | some i =>
      obtain ⟨⟨m, hm, hmp, hmb⟩, hlast⟩ := ih.1 hsel
      constructor
      · intro h
        obtain rfl := Option.some.inj h
        refine ⟨⟨m, hm, hmp, hmb⟩, fun j l' hj hl' => ?_⟩
        obtain ⟨j, rfl⟩ := Nat.exists_eq_succ_of_ne_zero (n := j) (by omega)
        exact hlast j l' (by omega) hl'
      · rintro ⟨⟨m', hm', hmp', hmb'⟩, hlast'⟩
        cases k with
        | zero => exact absurd hmb (hlast' (i + 1) m (by omega) hm hmp)
        | succ k =>
          have hk : some i = some k := by
            rw [← hsel]
            exact ih.2 ⟨⟨m', hm', hmp', hmb'⟩, fun j l' hj hl' =>
              hlast' (j + 1) l' (by omega) hl'⟩
          exact congrArg (Option.map (· + 1)) hk
    | none =>
      have hnone := selected_eq_none_iff.1 hsel
      constructor
      · intro h
        dsimp only at h
        split at h
        · rename_i hl
          obtain rfl := Option.some.inj h
          refine ⟨⟨l, rfl, hl.1.symm, hl.2.symm⟩, fun j l' hj hl' hp hb => ?_⟩
          obtain ⟨j, rfl⟩ := Nat.exists_eq_succ_of_ne_zero (n := j) (by omega)
          exact hnone l' (List.mem_of_getElem? hl') ⟨hp.symm, hb.symm⟩
        · cases h
      · rintro ⟨⟨m, hm, hmp, hmb⟩, -⟩
        cases k with
        | zero =>
          obtain rfl := Option.some.inj hm
          exact if_pos ⟨hmp.symm, hmb.symm⟩
        | succ k => exact absurd ⟨hmp.symm, hmb.symm⟩ (hnone m (List.mem_of_getElem? hm))

/-! ## The accesses and the lines that close their segments -/

variable {lzo : Lzo} {hashCombine : UInt64 → UInt64 → UInt64} {t : ThreadState} {P : OmptId}

/-- An access in the buffer: the region of the innermost implicit task, and the
number of the metafile line that will close its segment. -/
structure Appended where
  region : OmptId
  line : Nat
  deriving DecidableEq, Repr

/-- For some barrier number, `main` selects the line that closes the access's
segment when it is run for the access's region. -/
def Covered (metafile : List MetaLine) (a : Appended) : Prop :=
  ∃ barrierId, selected a.region barrierId metafile = some a.line

/-- The region an event writes a metafile line for. -/
def eventLine (t : ThreadState) (e : ThreadEvent) : Option ParallelData :=
  match e.event t.stack with
  | .call c => lineOf c
  | .background => none

/-- The next line the thread writes is one of the region. -/
def ClosedFor (lzo : Lzo) (hashCombine : UInt64 → UInt64 → UInt64) (P : OmptId) :
    ThreadState → List ThreadEvent → Prop
  | _, [] => False
  | t, e :: es =>
    match eventLine t e with
    | some par => par.parallelId = P
    | none => ClosedFor lzo hashCombine P (t.step lzo hashCombine e) es

theorem step_of_eventLine_none (lzo : Lzo) (hashCombine : UInt64 → UInt64 → UInt64)
    {t : ThreadState} {e : ThreadEvent} (h : eventLine t e = none) :
    (t.step lzo hashCombine e).tls.metafile = t.tls.metafile ∧
      (t.step lzo hashCombine e).tls.bid = t.tls.bid := by
  rw [tls_step]
  unfold eventLine at h
  cases hev : e.event t.stack with
  | call c =>
    rw [hev] at h
    exact callback_of_lineOf_none h
  | background => exact ⟨sameLabels_runDump.metafile, sameLabels_runDump.bid⟩

theorem step_of_eventLine_some (lzo : Lzo) (hashCombine : UInt64 → UInt64 → UInt64)
    {t : ThreadState} {e : ThreadEvent} {par : ParallelData} (h : eventLine t e = some par) :
    ∃ l : MetaLine, (t.step lzo hashCombine e).tls.metafile = t.tls.metafile ++ [l] ∧
      l.parallelId = par.parallelId := by
  rw [tls_step]
  unfold eventLine at h
  cases hev : e.event t.stack with
  | call c =>
    rw [hev] at h
    obtain ⟨l, hm, hp, -⟩ := callback_of_lineOf_some lzo hashCombine t.tls h
    exact ⟨l, hm, hp⟩
  | background =>
    rw [hev] at h
    cases h

/-- The thread's task of the region has begun: the region will not be entered
again. -/
structure Live (P : OmptId) (t : ThreadState) : Prop extends Nest t where
  started : P ∈ t.seen
  begun : ∀ par, .encountered par ∈ t.stack → par.parallelId ≠ P

/-- The region is that of a task on the stack. -/
def Running (P : OmptId) (t : ThreadState) : Prop :=
  ∃ par own, .task par own ∈ t.stack ∧ par.parallelId = P

theorem innermost_mem {stack : List Frame} {par : ParallelData} (h : innermost stack = some par) :
    ∃ own, .task par own ∈ stack := by
  induction stack with
  | nil => cases h
  | cons f fs ih =>
    cases f with
    | task par' own =>
      obtain rfl := Option.some.inj h
      exact ⟨own, List.mem_cons_self⟩
    | encountered par' =>
      obtain ⟨own, hmem⟩ := ih h
      exact ⟨own, List.mem_cons_of_mem _ hmem⟩
    | finished par' =>
      obtain ⟨own, hmem⟩ := ih h
      exact ⟨own, List.mem_cons_of_mem _ hmem⟩

/-- The region of the innermost task is live. -/
theorem live_of_innermost (h : Nest t) {par : ParallelData} (hin : innermost t.stack = some par) :
    Live par.parallelId t := by
  obtain ⟨own, hmem⟩ := innermost_mem hin
  refine ⟨h, h.seen _ hmem, fun par' hmem' heq => ?_⟩
  have := List.inj_on_of_nodup_map h.nodup hmem' hmem heq
  cases this

/-- An event neither encounters the region again nor begins another task of it. -/
theorem Live.step (h : Live P t) (lzo : Lzo) (hashCombine : UInt64 → UInt64 → UInt64)
    {e : ThreadEvent} (hwf : WellNested t e) :
    Live P (t.step lzo hashCombine e) ∧
      (Running P (t.step lzo hashCombine e) → Running P t) := by
  refine ⟨⟨h.toNest.step hwf, seen_subset_step e h.started, fun par hpar => ?_⟩, ?_⟩
  · rcases mem_stack_step hwf hpar with hmem | hnew | ⟨par', heq, -⟩ | ⟨par', heq⟩
    · exact h.begun par hmem
    · rintro rfl
      exact hnew h.started
    · cases heq
    · cases heq
  · rintro ⟨par, own, hmem, rfl⟩
    rcases mem_stack_step hwf hmem with hmem | hnew | ⟨par', heq, henc⟩ | ⟨par', heq⟩
    · exact ⟨par, own, hmem, rfl⟩
    · exact absurd h.started hnew
    · cases heq
      exact absurd rfl (h.begun par henc)
    · cases heq

/-- A line for a live region is written by a sync region of its task, which is
the one on top of the stack. -/
theorem Live.eventLine_cases (h : Live P t) {e : ThreadEvent} (hwf : WellNested t e)
    {par : ParallelData} (hline : eventLine t e = some par) :
    (∃ kind own fs, e = .syncBegin kind ∧ t.stack = .task par own :: fs) ∨
      par.parallelId ≠ P ∧ ¬ Running P t := by
  cases e with
  | syncBegin kind =>
    obtain ⟨par', own, fs, hs⟩ := hwf
    obtain rfl : top t.stack = par := Option.some.inj hline
    exact Or.inl ⟨kind, own, fs, rfl, by rw [hs]; rfl⟩
  | taskBegin teamSize threadNum =>
    obtain ⟨par', fs, hs⟩ := hwf
    have hif : (if (top t.stack).level = 1 then some (top t.stack) else none) = some par := hline
    rw [show top t.stack = par' by rw [hs]; rfl] at hif
    split at hif
    · rename_i hlevel
      obtain rfl := Option.some.inj hif
      refine Or.inr ⟨h.begun par' (hs ▸ List.mem_cons_self), ?_⟩
      rintro ⟨q, own, hmem, -⟩
      rw [hs] at hmem
      rcases List.mem_cons.1 hmem with heq | hmem
      · cases heq
      · have := h.toNest.two_le_level hs hmem
        omega
    · cases hif
  | workerTaskBegin par' teamSize threadNum =>
    obtain ⟨hs, hpid, -⟩ := hwf
    have hif : (if par'.level = 1 then some par' else none) = some par := hline
    split at hif
    · obtain rfl := Option.some.inj hif
      refine Or.inr ⟨fun heq => hpid (heq ▸ h.started), ?_⟩
      rintro ⟨q, own, hmem, -⟩
      rw [hs] at hmem
      cases hmem
    · cases hif
  | _ => cases hline

/-- The line is one of the task on top of the stack, with its barrier number; or it is one of
another region. -/
theorem Live.step_of_eventLine_some (h : Live P t) (lzo : Lzo)
    (hashCombine : UInt64 → UInt64 → UInt64) {e : ThreadEvent} (hwf : WellNested t e)
    {par : ParallelData} (hline : eventLine t e = some par) :
    ∃ l : MetaLine, (t.step lzo hashCombine e).tls.metafile = t.tls.metafile ++ [l] ∧
      l.parallelId = par.parallelId ∧
        ((∃ own fs, t.stack = .task par own :: fs) ∧ l.bid = t.tls.bid ∧
            (t.step lzo hashCombine e).tls.bid = t.tls.bid + 1 ∨
          par.parallelId ≠ P ∧ ¬ Running P t) := by
  rcases h.eventLine_cases hwf hline with ⟨kind, own, fs, rfl, hs⟩ | hother
  · obtain ⟨l, hm, hp, hlb, hb⟩ := callback_of_lineOf_some lzo hashCombine t.tls
      (c := .syncRegionBegin kind (top t.stack)) rfl
    have htop : top t.stack = par := by rw [hs]; rfl
    exact ⟨l, hm, htop ▸ hp, Or.inl ⟨⟨own, fs, hs⟩, hlb, hb⟩⟩
  · obtain ⟨l, hm, hp⟩ := Tools.step_of_eventLine_some lzo hashCombine hline
    exact ⟨l, hm, hp, Or.inr hother⟩

/-! ## After the line -/

/-- The line `k` is one of the region with barrier number `b`, and every later
line of the region has a larger one. -/
structure Settled (P : OmptId) (k b : Nat) (t : ThreadState) : Prop extends Live P t where
  line : ∃ l, t.tls.metafile[k]? = some l ∧ l.parallelId = P ∧ l.bid = b
  later : ∀ j l, k < j → t.tls.metafile[j]? = some l → l.parallelId = P → b < l.bid
  bid : Running P t → b < t.tls.bid

/-- What holds of all lines after the line `k`, and of a new one, holds with the new one. -/
theorem later_concat {lines : List MetaLine} {l : MetaLine} {k : Nat} {Q : MetaLine → Prop}
    (h : ∀ j m, k < j → lines[j]? = some m → Q m) (hl : Q l) :
    ∀ j m, k < j → (lines ++ [l])[j]? = some m → Q m := by
  intro j m hj hm
  by_cases hjlt : j < lines.length
  · rw [List.getElem?_append_left hjlt] at hm
    exact h j m hj hm
  · rw [List.getElem?_append_right (by omega)] at hm
    obtain rfl := List.mem_singleton.1 (List.mem_of_getElem? hm)
    exact hl

theorem Settled.step {k b : Nat} (h : Settled P k b t) {e : ThreadEvent} (hwf : WellNested t e) :
    Settled P k b (t.step lzo hashCombine e) := by
  obtain ⟨hlive, hrun⟩ := h.toLive.step lzo hashCombine hwf
  obtain ⟨l, hl, hlp, hlb⟩ := h.line
  have hk := (List.getElem?_eq_some_iff.1 hl).1
  cases hline : eventLine t e with
  | none =>
    obtain ⟨hm, hb⟩ := step_of_eventLine_none lzo hashCombine hline
    refine ⟨hlive, ⟨l, by rw [hm]; exact hl, hlp, hlb⟩, ?_, fun hr => ?_⟩
    · rw [hm]
      exact h.later
    · rw [hb]
      exact h.bid (hrun hr)
  | some par =>
    obtain ⟨l', hm, hp, hcase⟩ := h.toLive.step_of_eventLine_some lzo hashCombine hwf hline
    have hline' : (t.tls.metafile ++ [l'])[k]? = some l := by
      rw [List.getElem?_append_left hk]
      exact hl
    refine ⟨hlive, ⟨l, by rw [hm]; exact hline', hlp, hlb⟩, ?_, fun hr => ?_⟩
    · rw [hm]
      refine later_concat h.later fun hlP => ?_
      rcases hcase with ⟨⟨own, fs, hs⟩, hlb', -⟩ | ⟨hne, -⟩
      · rw [hlb']
        exact h.bid ⟨par, own, hs ▸ List.mem_cons_self, hp.symm.trans hlP⟩
      · exact absurd (hp.symm.trans hlP) hne
    · rcases hcase with ⟨-, -, hb⟩ | ⟨-, hnot⟩
      · have := h.bid (hrun hr)
        omega
      · exact absurd (hrun hr) hnot

/-- If the next line is one of the region, it stays the last with its number. -/
theorem Live.settled (h : Live P t) {es : List ThreadEvent}
    (hwf : Run.Guarded (ThreadState.step lzo hashCombine) WellNested t es)
    (hc : ClosedFor lzo hashCombine P t es) :
    ∃ b, Settled P t.tls.metafile.length b (threadRun lzo hashCombine t es) := by
  induction es generalizing t with
  | nil => exact hc.elim
  | cons e es ih =>
    rw [ClosedFor] at hc
    obtain ⟨hlive, -⟩ := h.step lzo hashCombine hwf.1
    cases hline : eventLine t e with
    | none =>
      rw [hline] at hc
      have hlen := congrArg List.length
        (step_of_eventLine_none lzo hashCombine hline).1
      rw [← hlen]
      exact ih hlive hwf.2 hc
    | some par =>
      rw [hline] at hc
      obtain ⟨l, hm, hp, ⟨-, hlb, hb⟩ | ⟨hne, -⟩⟩ :=
        h.step_of_eventLine_some lzo hashCombine hwf.1 hline
      · have hset : Settled P t.tls.metafile.length t.tls.bid (t.step lzo hashCombine e) := by
          refine ⟨hlive, ⟨l, by rw [hm]; simp, hp.trans hc, hlb⟩, ?_, fun _ => by omega⟩
          intro j m hj hmj
          have hlt := (List.getElem?_eq_some_iff.1 hmj).1
          rw [hm, List.length_append, List.length_singleton] at hlt
          omega
        exact ⟨t.tls.bid, Run.invariant_of_guarded (P := Settled P t.tls.metafile.length t.tls.bid)
          (fun _ _ hs hc => hs.step hc) hset hwf.2⟩
      · exact absurd hc hne

end Tools
end Sword
