import Sword.Tools.Lockset

/-!
# The run-time filter and the locks

`SAVE_ACCESS` drops an access whose hash is in the filter, and the filter is
emptied when the buffer goes out.  The mutex callbacks neither look at it nor
empty it, so an access can be dropped although it is made under other locks than
the one that was logged.

* `Window` — the filter in terms of items: what the buffer has taken since it
  was last empty.  `logged` are the items of a sequence that get through.
* `filterInv_run` — at the start of a barrier interval the buffer and the filter
  are empty, in every history.
* `segment_run` — what the runtime puts into the buffer is `logged`, for every
  schedule of the background task.
* `mem_replay_logged` — which calls the reader makes for it.
* `RepeatsProtected` — an access that is made again while it is in the window is
  made under the locks of one that was not.
* `dedup_iff` — exactly then the filter does not change what locks protect an
  access.
-/

namespace Sword
namespace Tools

open Rtl

variable {lzo : Lzo} {hashCombine : UInt64 → UInt64 → UInt64} {s : Tls}

/-! ## The filter in terms of items -/

/-- Is the item an access? -/
def isAccess : TraceItem → Bool
  | .dataAccess _ => true
  | _ => false

/-- What the buffer has taken since it was last empty. -/
structure Window where
  /-- The number of items taken. -/
  count : Nat := 0
  /-- The items taken. -/
  seen : Finset TraceItem := ∅

/-- The item is an access the window already has. -/
def Window.drops (w : Window) (x : TraceItem) : Bool := isAccess x && decide (x ∈ w.seen)

/-- The window after an item: it starts over when the buffer is full. -/
def Window.next (w : Window) (x : TraceItem) : Window :=
  if w.drops x then w
  else if w.count + 1 = numOfAccesses then {}
  else ⟨w.count + 1, insert x w.seen⟩

/-- The window after a sequence of items. -/
def Window.after (w : Window) (xs : List TraceItem) : Window := xs.foldl Window.next w

/-- The items that get through. -/
def logged (w : Window) : List TraceItem → List TraceItem
  | [] => []
  | x :: xs => if w.drops x then logged (w.next x) xs else x :: logged (w.next x) xs

/-! ## The start of an interval -/

/-- An empty buffer comes with an empty filter, and an empty segment with an
empty buffer. -/
structure FilterInv (s : Tls) : Prop where
  set : s.idx = 0 → s.set = ∅
  idx : s.hist.segment = [] → s.idx = 0

theorem filterInv_onThreadBegin : FilterInv onThreadBegin := ⟨fun _ => rfl, fun _ => rfl⟩

theorem FilterInv.runDump (h : FilterInv s) : FilterInv (runDump lzo s) := by
  rcases Option.eq_none_or_eq_some s.fut with hf | ⟨d, hf⟩
  · rw [runDump_of_idle hf]
    exact h
  · rw [runDump_of_some hf]
    exact ⟨h.set, h.idx⟩

/-- A flush leaves the buffer and the filter empty. -/
theorem flushBuffer_fields (lzo : Lzo) (s : Tls) (n : Nat) : (flushBuffer lzo n s).idx = 0 ∧
    (flushBuffer lzo n s).set = ∅ ∧ (flushBuffer lzo n s).hist.segment = s.hist.segment := by
  rw [flushBuffer_eq]
  refine ⟨rfl, rfl, ?_⟩
  unfold Rtl.runDump
  cases s.fut <;> rfl

/-- What an item put into the buffer does to the index, the filter and the
segment. -/
theorem putItem_fields (lzo : Lzo) (s : Tls) (x : TraceItem) :
    (putItem lzo x s).idx = (if s.idx + 1 = numOfAccesses then 0 else s.idx + 1) ∧
      (putItem lzo x s).set = (if s.idx + 1 = numOfAccesses then ∅ else s.set) ∧
      (putItem lzo x s).hist.segment = s.hist.segment ++ [x] := by
  have hbump : (bumpItem x s).idx = s.idx + 1 ∧ (bumpItem x s).set = s.set ∧
      (bumpItem x s).hist.segment = s.hist.segment ++ [x] := by
    unfold bumpItem storeItem
    cases s.accesses <;> exact ⟨rfl, rfl, rfl⟩
  obtain ⟨hi, hs, hg⟩ := hbump
  obtain ⟨fi, fs, fg⟩ := flushBuffer_fields lzo (bumpItem x s) numOfAccesses
  rw [putItem_eq]
  split
  · exact ⟨fi, fs, fg.trans hg⟩
  · exact ⟨hi, hs, hg⟩

theorem filterInv_putItem (x : TraceItem) : FilterInv (putItem lzo x s) := by
  obtain ⟨hi, hs, hg⟩ := putItem_fields lzo s x
  refine ⟨fun h => ?_, fun h => ?_⟩
  · rw [hi] at h
    split at h
    · rename_i hfull
      rw [hs, if_pos hfull]
    · omega
  · rw [hg] at h
    simp at h

/-- The flush before a metafile line. -/
theorem FilterInv.flushNow (h : FilterInv s) (lzo : Lzo) :
    (futWait lzo (dumpnocheckToFileM lzo s)).idx = 0 ∧
      (futWait lzo (dumpnocheckToFileM lzo s)).set = ∅ := by
  have hrun : ∀ t : Tls, (Rtl.runDump lzo t).idx = t.idx ∧ (Rtl.runDump lzo t).set = t.set := by
    intro t
    unfold Rtl.runDump
    cases t.fut <;> exact ⟨rfl, rfl⟩
  unfold futWait dumpnocheckToFileM
  split
  · obtain ⟨fi, fs, -⟩ := flushBuffer_fields lzo s s.idx
    exact ⟨(hrun _).1.trans fi, (hrun _).2.trans fs⟩
  · have h0 : s.idx = 0 := by omega
    exact ⟨(hrun s).1.trans h0, (hrun s).2.trans (h.set h0)⟩

theorem filterInv_of_empty {s : Tls} (hi : s.idx = 0) (hs : s.set = ∅) : FilterInv s :=
  ⟨fun _ => hs, fun _ => hi⟩

theorem FilterInv.step (h : FilterInv s) (e : Event) : FilterInv (step lzo hashCombine s e) := by
  cases e with
  | background => exact h.runDump
  | call c =>
    cases c with
    | access asize atype addr callerpc =>
      unfold Rtl.step Rtl.callback saveAccess
      dsimp only
      split
      · exact h
      · exact filterInv_putItem _
    | mutexAcquired kind waitId => exact filterInv_putItem _
    | mutexReleased kind waitId => exact filterInv_putItem _
    | parallelBegin parentTask pid threadNum teamSize =>
      unfold Rtl.step Rtl.callback onParallelBegin
      dsimp only
      split
      · exact ⟨h.set, h.idx⟩
      · split <;> exact ⟨h.set, h.idx⟩
    | parallelEnd => exact h
    | implicitTaskBegin par teamSize threadNum =>
      unfold Rtl.step Rtl.callback onImplicitTaskBegin
      dsimp only
      split
      · have h0 : FilterInv { s with status := par.level, bid := 0 } := ⟨h.set, h.idx⟩
        obtain ⟨hi, hs⟩ := h0.flushNow lzo
        split <;> exact filterInv_of_empty hi hs
      · exact ⟨h.set, h.idx⟩
    | implicitTaskEnd => exact ⟨h.set, h.idx⟩
    | syncRegionBegin kind par =>
      obtain ⟨hi, hs⟩ := h.flushNow lzo
      exact filterInv_of_empty hi hs
    | syncRegionEnd => exact h

theorem filterInv_run (lzo : Lzo) (hashCombine : UInt64 → UInt64 → UInt64) (evs : List Event) :
    FilterInv (run lzo hashCombine onThreadBegin evs) :=
  Run.invariant (P := FilterInv) (fun _ e hs => hs.step e) filterInv_onThreadBegin evs

/-! ## What the runtime puts into the buffer -/

/-- The item a call is about. -/
def itemOf : Callback → Option TraceItem
  | .access asize atype addr callerpc => some (.dataAccess (Access.make asize atype addr callerpc))
  | .mutexAcquired kind waitId => some (.mutexAcquired ⟨kind, waitId⟩)
  | .mutexReleased kind waitId => some (.mutexReleased ⟨kind, waitId⟩)
  | _ => none

/-- The items of a sequence of events, the dropped ones included. -/
def items : List Event → List TraceItem
  | [] => []
  | .call c :: evs => (itemOf c).toList ++ items evs
  | .background :: evs => items evs

/-- Events within a barrier interval: accesses, mutex events, and the background
task. -/
def WithinInterval (evs : List Event) : Prop := ∀ c, .call c ∈ evs → itemOf c ≠ none

/-- No two of the items have the same hash. -/
def NoCollision (hashCombine : UInt64 → UInt64 → UInt64) (xs : List TraceItem) : Prop :=
  ∀ x ∈ xs, ∀ y ∈ xs, hashValue hashCombine x = hashValue hashCombine y → x = y

/-- The index and the filter of the runtime are those of the window. -/
structure Filters (hashCombine : UInt64 → UInt64 → UInt64) (xs : List TraceItem) (s : Tls)
    (w : Window) : Prop where
  count : s.idx = w.count
  set : s.set = (w.seen.filter (isAccess ·)).image (hashValue hashCombine)
  mem : ∀ x ∈ w.seen, x ∈ xs

theorem Filters.mem_set_iff {xs : List TraceItem} {w : Window} (h : Filters hashCombine xs s w)
    (hinj : NoCollision hashCombine xs) {x : TraceItem} (hx : x ∈ xs) (hacc : isAccess x) :
    hashValue hashCombine x ∈ s.set ↔ w.drops x := by
  rw [h.set, Finset.mem_image, Window.drops, hacc, Bool.true_and, decide_eq_true_iff]
  constructor
  · rintro ⟨y, hy, hxy⟩
    obtain ⟨hmem, -⟩ := Finset.mem_filter.1 hy
    rw [← hinj y (h.mem y hmem) x hx hxy]
    exact hmem
  · exact fun hmem => ⟨x, Finset.mem_filter.2 ⟨hmem, hacc⟩, rfl⟩

/-- An item that is put into the buffer, with its hash in the filter if it is an
access. -/
theorem Filters.putItem {xs : List TraceItem} {w : Window} (h : Filters hashCombine xs s w)
    {x : TraceItem} (hx : x ∈ xs) (hdrop : w.drops x = false) {set : Finset UInt64}
    (hset : set = if isAccess x then insert (hashValue hashCombine x) s.set else s.set) :
    Filters hashCombine xs (putItem lzo x { s with set := set }) (w.next x) ∧
      (putItem lzo x { s with set := set }).hist.segment = s.hist.segment ++ [x] := by
  obtain ⟨hi, hs, hg⟩ := putItem_fields lzo { s with set := set } x
  refine ⟨?_, hg⟩
  rw [Window.next, hdrop, if_neg Bool.false_ne_true, ← h.count]
  dsimp only at hi hs
  split
  · rename_i hfull
    rw [if_pos hfull] at hi hs
    exact ⟨hi, hs, fun x hx => absurd hx (Finset.notMem_empty x)⟩
  · rename_i hnot
    rw [if_neg hnot] at hi hs
    refine ⟨hi, ?_, ?_⟩
    · rw [hs, hset, h.set, Finset.filter_insert]
      split
      · rw [Finset.image_insert]
      · rfl
    · intro y hy
      rcases Finset.mem_insert.1 hy with rfl | hy
      · exact hx
      · exact h.mem y hy

/-- One call: an access the window drops leaves everything as it was, any other
item goes into the buffer. -/
theorem Filters.callback {xs : List TraceItem} {w : Window} (h : Filters hashCombine xs s w)
    (lzo : Lzo) (hinj : NoCollision hashCombine xs) {c : Callback} {x : TraceItem}
    (hc : itemOf c = some x)
    (hx : x ∈ xs) :
    Filters hashCombine xs (callback lzo hashCombine s c) (w.next x) ∧
      (callback lzo hashCombine s c).hist.segment =
        s.hist.segment ++ if w.drops x then [] else [x] := by
  cases c with
  | access asize atype addr callerpc =>
    obtain rfl := Option.some.inj hc
    have hiff := h.mem_set_iff hinj hx rfl
    unfold Rtl.callback saveAccess
    dsimp only
    by_cases hdrop : w.drops (.dataAccess (Access.make asize atype addr callerpc)) = true
    · rw [if_pos (hiff.2 hdrop), if_pos hdrop, Window.next, if_pos hdrop, List.append_nil]
      exact ⟨h, rfl⟩
    · rw [if_neg (mt hiff.1 hdrop), if_neg hdrop]
      exact h.putItem hx (by simpa using hdrop) (if_pos rfl).symm
  | mutexAcquired kind waitId =>
    obtain rfl := Option.some.inj hc
    exact h.putItem hx rfl rfl
  | mutexReleased kind waitId =>
    obtain rfl := Option.some.inj hc
    exact h.putItem hx rfl rfl
  | _ => cases hc

theorem Filters.runDump {xs : List TraceItem} {w : Window} (h : Filters hashCombine xs s w)
    (lzo : Lzo) :
    Filters hashCombine xs (runDump lzo s) w ∧
      (Rtl.runDump lzo s).hist.segment = s.hist.segment := by
  rcases Option.eq_none_or_eq_some s.fut with hf | ⟨d, hf⟩
  · rw [runDump_of_idle hf]
    exact ⟨h, rfl⟩
  · rw [runDump_of_some hf]
    exact ⟨⟨h.count, h.set, h.mem⟩, rfl⟩

/-- **The filter.**  Within an interval, what the runtime puts into the buffer are
the logged items, however the background task is scheduled. -/
theorem Filters.segment_run {xs : List TraceItem} (hinj : NoCollision hashCombine xs)
    {evs : List Event} (hevs : WithinInterval evs) (hxs : ∀ x ∈ items evs, x ∈ xs) :
    ∀ {s : Tls} {w : Window}, Filters hashCombine xs s w →
      (run lzo hashCombine s evs).hist.segment = s.hist.segment ++ logged w (items evs) := by
  induction evs with
  | nil => intro s w _; exact (List.append_nil _).symm
  | cons e evs ih =>
    intro s w h
    have hevs' : WithinInterval evs := fun c hc => hevs c (List.mem_cons_of_mem _ hc)
    cases e with
    | background =>
      obtain ⟨hrun, hseg⟩ := h.runDump lzo
      rw [run, Run.exec_cons, ← run, step, ih hevs' hxs hrun, hseg]
      rfl
    | call c =>
      obtain ⟨x, hc⟩ := Option.ne_none_iff_exists'.1 (hevs c List.mem_cons_self)
      have hitems : items (.call c :: evs) = x :: items evs := by rw [items, hc]; rfl
      rw [hitems] at hxs ⊢
      obtain ⟨hcall, hseg⟩ := h.callback lzo hinj hc (hxs x List.mem_cons_self)
      rw [run, Run.exec_cons, ← run, step,
        ih hevs' (fun y hy => hxs y (List.mem_cons_of_mem _ hy)) hcall, hseg, logged,
        List.append_assoc]
      split <;> rfl

/-! ## What the reader makes of it -/

/-- The places of the accesses in `x :: xs`. -/
theorem exists_access_cons {P : List TraceItem → Access → Prop} {x : TraceItem}
    {xs : List TraceItem} :
    (∃ pre a post, x :: xs = pre ++ .dataAccess a :: post ∧ P pre a) ↔
      (∃ a, x = .dataAccess a ∧ P [] a) ∨
        ∃ pre a post, xs = pre ++ .dataAccess a :: post ∧ P (x :: pre) a := by
  constructor
  · rintro ⟨pre, a, post, hp, h⟩
    cases pre with
    | nil => exact Or.inl ⟨a, (List.cons.inj hp).1, h⟩
    | cons y ys =>
      obtain ⟨rfl, hys⟩ := List.cons.inj hp
      exact Or.inr ⟨ys, a, post, hys, h⟩
  · rintro (⟨a, rfl, h⟩ | ⟨pre, a, post, rfl, h⟩)
    · exact ⟨[], a, xs, rfl, h⟩
    · exact ⟨x :: pre, a, post, rfl, h⟩

theorem mem_replay_iff {c : InsertCall} {mutex : Finset UInt64} {xs : List TraceItem} :
    c ∈ replay mutex xs ↔
      ∃ pre a post, xs = pre ++ .dataAccess a :: post ∧ c = insertCall a (heldAfter mutex pre) := by
  induction xs generalizing mutex with
  | nil => simp [replay]
  | cons x xs ih =>
    rw [exists_access_cons]
    cases x with
    | dataAccess a => simp [replay, ih, holdAfter]
    | mutexAcquired m => simp [replay, ih]
    | mutexReleased m => simp [replay, ih]

/-- The reader makes the calls for the accesses that were not dropped, with the
locks they were made under: the mutex events are never dropped. -/
theorem mem_replay_logged {c : InsertCall} {mutex : Finset UInt64} {w : Window}
    {xs : List TraceItem} :
    c ∈ replay mutex (logged w xs) ↔
      ∃ pre a post, xs = pre ++ .dataAccess a :: post ∧
        (w.after pre).drops (.dataAccess a) = false ∧
          c = insertCall a (heldAfter mutex pre) := by
  induction xs generalizing mutex w with
  | nil => simp [logged, replay]
  | cons x xs ih =>
    rw [exists_access_cons
      (P := fun pre a => (w.after pre).drops (.dataAccess a) = false ∧
        c = insertCall a (heldAfter mutex pre)), logged]
    cases x with
    | dataAccess a =>
      by_cases hdrop : w.drops (.dataAccess a) = true
      · rw [if_pos hdrop, ih]
        simp [Window.after, hdrop, holdAfter]
      · rw [if_neg hdrop, replay, List.mem_cons, ih]
        simp [Window.after, hdrop, holdAfter]
    | mutexAcquired m =>
      have hdrop : w.drops (.mutexAcquired m) = false := rfl
      rw [hdrop, if_neg Bool.false_ne_true, replay, ih]
      simp [Window.after]
    | mutexReleased m =>
      have hdrop : w.drops (.mutexReleased m) = false := rfl
      rw [hdrop, if_neg Bool.false_ne_true, replay, ih]
      simp [Window.after]

theorem insertCall_inj {a a' : Access} {mutex mutex' : Finset UInt64} :
    insertCall a mutex = insertCall a' mutex' ↔ a = a' ∧ mutex = mutex' := by
  constructor
  · intro h
    obtain ⟨h1, h2, h3, h4⟩ := InsertCall.mk.inj h
    have hpc : a.pc = a'.pc := by
      have hsize : UInt64.size = 2 ^ 64 := rfl
      have hlt := a.pc.isLt
      have hlt' := a'.pc.isLt
      have hnat := congrArg UInt64.toNat h3
      rw [UInt64.toNat_ofNat_of_lt' (by omega), UInt64.toNat_ofNat_of_lt' (by omega)] at hnat
      exact BitVec.eq_of_toNat_eq hnat
    refine ⟨?_, h4⟩
    cases a
    cases a'
    simp_all
  · rintro ⟨rfl, rfl⟩
    rfl

/-- An access that is made again while the window still has it is made under the
same locks as an access to the same place, of the same kind and from the same
instruction, that is made when the window does not have it. -/
def RepeatsProtected (xs : List TraceItem) : Prop :=
  ∀ pre a post, xs = pre ++ .dataAccess a :: post →
    (Window.after {} pre).drops (.dataAccess a) →
      ∃ pre' post', xs = pre' ++ .dataAccess a :: post' ∧
        (Window.after {} pre').drops (.dataAccess a) = false ∧
          heldAfter ∅ pre' = heldAfter ∅ pre

theorem replay_logged_iff {xs : List TraceItem} :
    (∀ c, c ∈ replay ∅ (logged {} xs) ↔ c ∈ replay ∅ xs) ↔ RepeatsProtected xs := by
  simp only [mem_replay_logged]
  simp only [mem_replay_iff]
  constructor
  · intro h pre a post hp _
    obtain ⟨pre', a', post', hp', hdrop, he⟩ := (h _).2 ⟨pre, a, post, hp, rfl⟩
    obtain ⟨rfl, hheld⟩ := insertCall_inj.1 he
    exact ⟨pre', post', hp', hdrop, hheld.symm⟩
  · intro h c
    constructor
    · rintro ⟨pre, a, post, hp, -, he⟩
      exact ⟨pre, a, post, hp, he⟩
    · rintro ⟨pre, a, post, hp, rfl⟩
      by_cases hdrop : (Window.after {} pre).drops (.dataAccess a) = true
      · obtain ⟨pre', post', hp', hdrop', hheld⟩ := h pre a post hp hdrop
        exact ⟨pre', a, post', hp', hdrop', by rw [hheld]⟩
      · exact ⟨pre, a, post, hp, by simpa using hdrop, rfl⟩

/-- Within an interval that starts after any history, the runtime puts the logged
items into the buffer. -/
theorem segment_interval {before evs : List Event}
    (hstart : (run lzo hashCombine onThreadBegin before).hist.segment = [])
    (hevs : WithinInterval evs) (hinj : NoCollision hashCombine (items evs)) :
    (run lzo hashCombine onThreadBegin (before ++ evs)).hist.segment = logged {} (items evs) := by
  have hinv := filterInv_run lzo hashCombine before
  have h0 := hinv.idx hstart
  have hfilters : Filters hashCombine (items evs) (run lzo hashCombine onThreadBegin before) {} :=
    ⟨h0, by rw [hinv.set h0]; rfl, fun x hx => absurd hx (Finset.notMem_empty x)⟩
  rw [run, Run.exec_append, ← run, ← run, hfilters.segment_run hinj hevs (fun x hx => hx), hstart,
    List.nil_append]

/-- **The filter and the locks.**  For every history before the interval and every
sequence of accesses and mutex events within it, without hash collisions: the
items put into the buffer, replayed with one lockset, give the accesses and
locksets of the full sequence exactly if its repeats are protected. -/
theorem dedup_iff (lzo : Lzo) (hashCombine : UInt64 → UInt64 → UInt64) (before evs : List Event)
    (hstart : (run lzo hashCombine onThreadBegin before).hist.segment = [])
    (hevs : WithinInterval evs) (hinj : NoCollision hashCombine (items evs)) :
    (∀ c, c ∈ replay ∅ (run lzo hashCombine onThreadBegin (before ++ evs)).hist.segment ↔
      c ∈ replay ∅ (items evs)) ↔ RepeatsProtected (items evs) := by
  rw [segment_interval hstart hevs hinj, replay_logged_iff]

/-! ## An access repeated without the lock -/

/-- A write in a critical section, repeated after the section is left. -/
def unlockedRepeat : List Event :=
  [.call (.mutexAcquired 0 1), .call (.access .size4 .unsafeWrite 4096 64),
    .call (.mutexReleased 0 1), .call (.access .size4 .unsafeWrite 4096 64)]

theorem withinInterval_unlockedRepeat : WithinInterval unlockedRepeat := by
  intro c hc
  simp only [unlockedRepeat, List.mem_cons, Event.call.injEq, List.not_mem_nil, or_false] at hc
  rcases hc with rfl | rfl | rfl | rfl <;> exact Option.some_ne_none _

theorem noCollision_unlockedRepeat : NoCollision boostHashCombine (items unlockedRepeat) := by
  unfold NoCollision
  decide

theorem dedup_iff_unlockedRepeat :
    (∀ c, c ∈ replay ∅ (run Lzo.stored boostHashCombine onThreadBegin
        ([] ++ unlockedRepeat)).hist.segment ↔ c ∈ replay ∅ (items unlockedRepeat)) ↔
      RepeatsProtected (items unlockedRepeat) :=
  dedup_iff Lzo.stored boostHashCombine [] unlockedRepeat rfl withinInterval_unlockedRepeat
    noCollision_unlockedRepeat

/-- The unprotected write is dropped, and with it the pair of the write and the
empty lockset. -/
theorem unlockedRepeat_changes :
    ¬ ∀ c, c ∈ replay ∅ (run Lzo.stored boostHashCombine onThreadBegin
      ([] ++ unlockedRepeat)).hist.segment ↔ c ∈ replay ∅ (items unlockedRepeat) := by
  rw [segment_interval rfl withinInterval_unlockedRepeat noCollision_unlockedRepeat]
  intro h
  have hmem := (h (insertCall (Access.make .size4 .unsafeWrite 4096 64) ∅)).2 (by decide)
  exact absurd hmem (by decide)

end Tools
end Sword
