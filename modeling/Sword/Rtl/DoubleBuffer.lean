import Sword.Rtl.Thread

/-!
# Double buffering: what a posted dump writes

`DUMP_TO_FILE` hands the full buffer to a background task and goes on putting
items into "the other" buffer.  Nothing is lost or duplicated as long as the
task finds in the buffer, whenever it runs before the next `fut.wait()`, what was
there when the dump was posted.

* `BufferInv` — what holds in every state, whatever the schedule: the items put
  so far are the blocks posted, in order, followed by the filled part of the
  current buffer (`BufferInv.items`).
* `Intact` — every dump, the one in flight included, reads the block that was
  posted.
* `Harmless` — the condition on a single event: an item stored while a dump is in
  flight does not change the slot it is stored into.  Since `SWAP_BUFFER` does
  not swap (`swapBuffer_eq`), the slot belongs to the posted buffer.
* `intact_step` — a step keeps the dumps intact exactly if it is harmless.
* `dumps_intact_iff` — so does a run, under every schedule; in particular the
  data file then holds exactly the blocks that were posted.
-/

namespace Sword
namespace Rtl

/-! ## The invariant -/

/-- Every item put into the buffer so far. -/
def Tls.items (s : Tls) : List TraceItem := s.hist.segments.flatten ++ s.hist.segment

/-- The bytes a dump writes for a block. -/
def frame (lzo : Lzo) (block : List TraceItem) : List UInt8 := dumpToFile lzo block block.length

theorem dumpToFile_eq_frame (lzo : Lzo) (accesses : List TraceItem) (n : Nat) :
    dumpToFile lzo accesses n = frame lzo (accesses.take n) := by
  rw [frame, dumpToFile, dumpToFile, List.take_length]

/-- What the dumps have read, once the one in flight is executed as well. -/
def Tls.settled (s : Tls) : List (List TraceItem) :=
  match s.fut with
  | none => s.hist.dumped
  | some d => s.hist.dumped ++ [(s.buffer d.buffer).take d.nmemb]

/-- The dump in flight refers to the first buffer, and the slots that have not
been stored into since it was posted still hold what was posted. -/
def InFlight (s : Tls) (d : Dump) : Prop :=
  d.buffer = .accesses1 ∧ ∃ ps p, s.hist.posted = ps ++ [p] ∧ ps.length = s.hist.dumped.length ∧
    p.length = d.nmemb ∧ (s.accesses1.take d.nmemb).drop s.idx = p.drop s.idx

/-- The invariant of the buffer, for every schedule of the background task. -/
structure BufferInv (lzo : Lzo) (s : Tls) : Prop where
  /-- The buffers are never swapped. -/
  accesses : s.accesses = .accesses1
  /-- The buffer keeps its length. -/
  length : s.accesses1.length = numOfAccesses
  /-- The index stays within the buffer. -/
  idx_le : s.idx ≤ numOfAccesses
  /-- The items are the posted blocks and the filled part of the buffer. -/
  items : s.hist.posted.flatten ++ s.accesses1.take s.idx = s.items
  /-- At most one dump is in flight. -/
  inFlight : ∀ d, s.fut = some d → InFlight s d
  /-- Without a dump in flight, every posted dump has been executed. -/
  idle : s.fut = none → s.hist.dumped.length = s.hist.posted.length
  /-- The data file is what the executed dumps wrote. -/
  datafile : s.datafile = s.hist.dumped.flatMap (frame lzo)

/-- Every dump reads what was posted. -/
def Intact (s : Tls) : Prop := s.settled = s.hist.posted

theorem bufferInv_onThreadBegin (lzo : Lzo) : BufferInv lzo onThreadBegin where
  accesses := rfl
  length := List.length_replicate
  idx_le := Nat.zero_le _
  items := rfl
  inFlight := fun d h => by cases h
  idle := fun _ => rfl
  datafile := rfl

theorem intact_onThreadBegin : Intact onThreadBegin := rfl

/-! ## Executing a dump -/

variable {lzo : Lzo} {s : Tls}

theorem settled_runDump (lzo : Lzo) : (runDump lzo s).settled = s.settled := by
  unfold runDump
  cases h : s.fut with
  | none => simp
  | some d => simp [Tls.settled, h]

theorem posted_runDump (lzo : Lzo) : (runDump lzo s).hist.posted = s.hist.posted := by
  unfold runDump
  cases s.fut <;> rfl

theorem fut_runDump : (runDump lzo s).fut = none := by
  unfold runDump
  cases h : s.fut with
  | none => simpa using h
  | some d => rfl

theorem dumped_runDump : (runDump lzo s).hist.dumped = s.settled := by
  rw [← settled_runDump lzo, Tls.settled, fut_runDump]

theorem intact_runDump : Intact (runDump lzo s) ↔ Intact s := by
  rw [Intact, settled_runDump, posted_runDump, Intact]

theorem idx_runDump : (runDump lzo s).idx = s.idx := by
  unfold runDump
  cases s.fut <;> rfl

theorem set_runDump : (runDump lzo s).set = s.set := by
  unfold runDump
  cases s.fut <;> rfl

theorem BufferInv.length_settled (h : BufferInv lzo s) :
    s.settled.length = s.hist.posted.length := by
  cases hf : s.fut with
  | none => simpa [Tls.settled, hf] using h.idle hf
  | some d =>
    obtain ⟨-, ps, p, hp, hlen, -⟩ := h.inFlight d hf
    simp [Tls.settled, hf, hp, hlen]

theorem BufferInv.runDump (h : BufferInv lzo s) : BufferInv lzo (runDump lzo s) := by
  have hidle : (Rtl.runDump lzo s).hist.dumped.length = (Rtl.runDump lzo s).hist.posted.length := by
    rw [dumped_runDump, posted_runDump, h.length_settled]
  unfold Rtl.runDump at hidle ⊢
  cases hf : s.fut with
  | none => simpa [hf] using h
  | some d =>
    rw [hf] at hidle
    refine ⟨h.accesses, h.length, h.idx_le, h.items, fun d' hd' => by simp at hd',
      fun _ => hidle, ?_⟩
    simp [h.datafile, dumpToFile_eq_frame]

/-! ## Storing an item -/

/-- Overwriting one slot of a list gives `p` exactly when the list already is `p`
and the slot already holds the item, provided the list agrees with `p` from that
slot on. -/
theorem set_eq_iff_of_drop_eq {α : Type} {b p : List α} {i : Nat} (x : α) (hi : i < b.length)
    (h : b.drop i = p.drop i) : b.set i x = p ↔ b = p ∧ b[i]? = some x := by
  have hself : b[i]? = some x → b.set i x = b := by
    intro hb
    obtain ⟨_, rfl⟩ := List.getElem?_eq_some_iff.1 hb
    exact List.set_getElem_self _
  constructor
  · intro hset
    have hp : p[i]? = some x := by rw [← hset]; simp [hi]
    have hb : b[i]? = some x := by
      have h0 : (b.drop i)[0]? = (p.drop i)[0]? := by rw [h]
      simpa [hp] using h0
    exact ⟨by rw [← hset, hself hb], hb⟩
  · rintro ⟨rfl, hb⟩
    exact hself hb

/-- Filling the next slot appends to the filled part. -/
theorem take_set_succ {α : Type} {b : List α} {i : Nat} (x : α) (hi : i < b.length) :
    (b.set i x).take (i + 1) = b.take i ++ [x] := by
  rw [List.take_succ_eq_append_getElem (by simpa using hi), List.take_set_of_le le_rfl]
  simp

/-- The slot the next item goes into, filled. -/
def bumpItem (x : TraceItem) (s : Tls) : Tls :=
  { storeItem x s with idx := s.idx + 1 }

/-- The item agrees with what is in its slot, whenever the slot belongs to a
dump in flight. -/
def SlotAgrees (x : TraceItem) (s : Tls) : Prop :=
  ∀ d, s.fut = some d → s.idx < d.nmemb → (s.buffer d.buffer)[s.idx]? = some x

theorem BufferInv.storeItem_eq (h : BufferInv lzo s) (x : TraceItem) :
    bumpItem x s = { s with
      accesses1 := s.accesses1.set s.idx x
      idx := s.idx + 1
      hist := { s.hist with segment := s.hist.segment ++ [x] } } := by
  simp [bumpItem, storeItem, h.accesses]

theorem BufferInv.bumpItem (h : BufferInv lzo s) (hlt : s.idx < numOfAccesses) (x : TraceItem) :
    BufferInv lzo (bumpItem x s) := by
  have hlen : s.idx < s.accesses1.length := by rw [h.length]; exact hlt
  rw [h.storeItem_eq x]
  refine ⟨h.accesses, by simp [h.length], hlt, ?_, ?_, h.idle, h.datafile⟩
  · simp only [Tls.items, take_set_succ x hlen, ← List.append_assoc]
    rw [h.items, Tls.items]
  · intro d hd
    obtain ⟨hb, ps, p, hp, hps, hpl, hdrop⟩ := h.inFlight d hd
    refine ⟨hb, ps, p, hp, hps, hpl, ?_⟩
    -- the slot stored into is no longer among those that have not been touched
    have h1 := congrArg (List.drop 1) hdrop
    simpa [List.drop_drop, List.take_set, List.drop_set_of_lt, Nat.add_comm] using h1

/-- Storing an item keeps the dumps intact exactly when the item agrees with the
slot of the dump in flight. -/
theorem BufferInv.intact_bumpItem (h : BufferInv lzo s) (x : TraceItem) :
    Intact (Rtl.bumpItem x s) ↔ Intact s ∧ SlotAgrees x s := by
  rw [h.storeItem_eq x]
  cases hf : s.fut with
  | none => simp [Intact, Tls.settled, SlotAgrees, hf]
  | some d =>
    obtain ⟨hb, ps, p, hp, hps, hpl, hdrop⟩ := h.inFlight d hf
    have hiff : (s.accesses1.set s.idx x).take d.nmemb = p ↔
        s.accesses1.take d.nmemb = p ∧ (s.idx < d.nmemb → s.accesses1[s.idx]? = some x) := by
      by_cases hlt : s.idx < d.nmemb
      · have hlen : s.idx < (s.accesses1.take d.nmemb).length := by
          have hl := congrArg List.length hdrop
          simp only [List.length_drop] at hl
          omega
        rw [List.take_set, set_eq_iff_of_drop_eq x hlen hdrop, List.getElem?_take_of_lt hlt]
        simp [hlt]
      · rw [List.take_set_of_le (by omega)]
        simp [hlt]
    have happ : ∀ b : List TraceItem,
        s.hist.dumped ++ [b] = ps ++ [p] ↔ s.hist.dumped = ps ∧ b = p := by
      intro b
      constructor
      · intro e
        simpa using List.append_inj' e rfl
      · rintro ⟨rfl, rfl⟩
        rfl
    simp only [Intact, Tls.settled, SlotAgrees, Tls.buffer, hf, hb, hp, happ, hiff,
      Option.some.injEq, forall_eq', and_assoc]

/-! ## Posting a dump -/

theorem flushBuffer_eq (n : Nat) : flushBuffer lzo n s = { runDump lzo s with
    fut := some ⟨(runDump lzo s).accesses, n⟩
    idx := 0
    set := ∅
    hist := { (runDump lzo s).hist with
      posted := s.hist.posted ++
        [((runDump lzo s).buffer (runDump lzo s).accesses).take n] } } := by
  rw [flushBuffer, swapBuffer_eq, ← posted_runDump lzo]
  rfl

/-- Waiting, posting the filled part of the buffer and starting over. -/
theorem BufferInv.flushBuffer (h : BufferInv lzo s) :
    BufferInv lzo (flushBuffer lzo s.idx s) := by
  have h1 := h.runDump
  have hbuf : (Rtl.runDump lzo s).buffer (Rtl.runDump lzo s).accesses =
      (Rtl.runDump lzo s).accesses1 := by rw [h1.accesses]; rfl
  have hitems := h1.items
  have hlen : s.idx ≤ (Rtl.runDump lzo s).accesses1.length := by rw [h1.length]; exact h.idx_le
  rw [idx_runDump, posted_runDump] at hitems
  rw [flushBuffer_eq, hbuf]
  refine ⟨h1.accesses, h1.length, Nat.zero_le _, ?_, ?_, fun hf => by simp at hf, h1.datafile⟩
  · simpa [Tls.items] using hitems
  · rintro d hd
    obtain rfl := Option.some.inj hd
    refine ⟨h1.accesses, s.hist.posted, _, rfl, ?_, ?_, rfl⟩
    · rw [← posted_runDump lzo]
      exact (h1.idle fut_runDump).symm
    · simpa using hlen

theorem intact_flushBuffer (n : Nat) : Intact (flushBuffer lzo n s) ↔ Intact s := by
  rw [flushBuffer_eq, Intact, Tls.settled]
  simp only [List.append_cancel_right_eq, Tls.buffer, dumped_runDump]
  cases (runDump lzo s).accesses <;> simp [Intact]

/-! ## The callbacks -/

theorem putItem_eq (x : TraceItem) : putItem lzo x s =
    if s.idx + 1 = numOfAccesses then flushBuffer lzo numOfAccesses (bumpItem x s)
    else bumpItem x s := by
  have hidx : (storeItem x s).idx = s.idx := by
    unfold storeItem
    cases s.accesses <;> rfl
  rw [putItem, dumpToFileM, hidx]
  rfl

/-- What a reachable state satisfies between two events. -/
structure Ready (lzo : Lzo) (s : Tls) : Prop extends BufferInv lzo s where
  /-- There is room for an item. -/
  idx_lt : s.idx < numOfAccesses

theorem Ready.putItem (h : Ready lzo s) (x : TraceItem) :
    Ready lzo (putItem lzo x s) ∧ (Intact (putItem lzo x s) ↔ Intact s ∧ SlotAgrees x s) := by
  have hb := h.toBufferInv.bumpItem h.idx_lt x
  rw [putItem_eq]
  split
  · rename_i hfull
    have hf := hb.flushBuffer
    rw [show (bumpItem x s).idx = numOfAccesses from hfull] at hf
    refine ⟨⟨hf, ?_⟩, by rw [intact_flushBuffer, h.toBufferInv.intact_bumpItem]⟩
    rw [flushBuffer_eq]
    exact numOfAccesses_pos
  · rename_i hnot
    refine ⟨⟨hb, ?_⟩, h.toBufferInv.intact_bumpItem x⟩
    have hlt := h.idx_lt
    show s.idx + 1 < numOfAccesses
    omega

theorem Ready.runDump (h : Ready lzo s) : Ready lzo (runDump lzo s) :=
  ⟨h.toBufferInv.runDump, by rw [idx_runDump]; exact h.idx_lt⟩

/-- `DUMPNOCHECK_TO_FILE` and the `fut.wait()` behind it. -/
theorem Ready.flushNow (h : Ready lzo s) :
    Ready lzo (futWait lzo (dumpnocheckToFileM lzo s)) ∧
      (Intact (futWait lzo (dumpnocheckToFileM lzo s)) ↔ Intact s) := by
  rw [futWait, intact_runDump, dumpnocheckToFileM]
  split
  · refine ⟨Ready.runDump ⟨h.toBufferInv.flushBuffer, ?_⟩, intact_flushBuffer _⟩
    rw [flushBuffer_eq]
    exact numOfAccesses_pos
  · exact ⟨h.runDump, Iff.rfl⟩

theorem BufferInv.writeMetaLine (h : BufferInv lzo s) (par : ParallelData)
    (offset span : UInt32) : BufferInv lzo (writeMetaLine par offset span s) := by
  refine ⟨h.accesses, h.length, h.idx_le, ?_, h.inFlight, h.idle, h.datafile⟩
  have hi := h.items
  simpa [Tls.items, Rtl.writeMetaLine] using hi

theorem Ready.writeMetaLine (h : Ready lzo s) (par : ParallelData) (offset span : UInt32) :
    Ready lzo (writeMetaLine par offset span s) :=
  ⟨h.toBufferInv.writeMetaLine par offset span, h.idx_lt⟩

/-- The remaining variables, among them the filter, do not concern the dumps. -/
theorem Ready.relabel (h : Ready lzo s) (set : Finset UInt64) (status : Int) (bid : Nat)
    (offset span : UInt32) :
    Ready lzo { s with set := set, status := status, bid := bid, offset := offset, span := span } ∧
      (Intact { s with set := set, status := status, bid := bid, offset := offset, span := span } ↔
        Intact s) :=
  ⟨⟨⟨h.accesses, h.length, h.idx_le, h.items, h.inFlight, h.idle, h.datafile⟩, h.idx_lt⟩, Iff.rfl⟩

/-- The item a call puts into the buffer, if it puts one there: an access the
filter does not hold, or a mutex event. -/
def storedItem (hashCombine : UInt64 → UInt64 → UInt64) (s : Tls) : Callback → Option TraceItem
  | .access asize atype addr callerpc =>
    let item := TraceItem.dataAccess (Access.make asize atype addr callerpc)
    if hashValue hashCombine item ∈ s.set then none else some item
  | .mutexAcquired kind waitId => some (.mutexAcquired ⟨kind, waitId⟩)
  | .mutexReleased kind waitId => some (.mutexReleased ⟨kind, waitId⟩)
  | _ => none

/-- The condition on an event: the item it stores does not change a slot of a
buffer that is waiting to be written. -/
def Harmless (hashCombine : UInt64 → UInt64 → UInt64) (s : Tls) : Event → Prop
  | .call c => ∀ x, storedItem hashCombine s c = some x → SlotAgrees x s
  | .background => True

/-- What an operation that stores nothing does to the buffer. -/
def Neutral (lzo : Lzo) (s s' : Tls) : Prop := Ready lzo s' ∧ (Intact s' ↔ Intact s)

theorem Neutral.trans {s₁ s₂ s₃ : Tls} (h : Neutral lzo s₁ s₂) (h' : Neutral lzo s₂ s₃) :
    Neutral lzo s₁ s₃ :=
  ⟨h'.1, h'.2.trans h.2⟩

variable {hashCombine : UInt64 → UInt64 → UInt64}

theorem Ready.parallelBegin (h : Ready lzo s) (parentTask : ParallelData) (pid : OmptId)
    (threadNum teamSize : UInt32) :
    Neutral lzo s (onParallelBegin parentTask pid threadNum teamSize s).1 := by
  unfold onParallelBegin
  dsimp only
  split
  · exact h.relabel s.set (s.status + 1) s.bid s.offset s.span
  · split
    · exact h.relabel s.set (s.status + 1) s.bid (s.offset + s.span) teamSize
    · exact h.relabel s.set (s.status + 1) s.bid (threadNum + teamSize) teamSize

theorem Ready.implicitTaskBegin (h : Ready lzo s) (par : ParallelData)
    (teamSize threadNum : UInt32) :
    Neutral lzo s (onImplicitTaskBegin lzo par teamSize threadNum s) := by
  unfold onImplicitTaskBegin
  dsimp only
  split
  · have h1 : Neutral lzo s { s with status := par.level, bid := 0 } :=
      h.relabel s.set par.level 0 s.offset s.span
    have h2 := h1.trans h1.1.flushNow
    have h3 := h2.trans ⟨h2.1.writeMetaLine par threadNum teamSize, Iff.rfl⟩
    split
    · exact h3.trans (h3.1.relabel _ _ _ threadNum teamSize)
    · exact h3
  · exact h.relabel s.set par.level s.bid s.offset s.span

theorem Ready.syncRegionBegin (h : Ready lzo s) (kind : SyncRegionKind) (par : ParallelData) :
    Neutral lzo s (onSyncRegionBegin lzo kind par s) := by
  have h1 : Neutral lzo s (futWait lzo (dumpnocheckToFileM lzo s)) := h.flushNow
  have h2 := h1.trans ⟨h1.1.writeMetaLine par (futWait lzo (dumpnocheckToFileM lzo s)).offset
    (futWait lzo (dumpnocheckToFileM lzo s)).span, Iff.rfl⟩
  exact h2.trans (h2.1.relabel _ _ (_ + 1) _ _)

/-- What one callback does to the buffer: it stays ready, and its dumps stay
intact exactly if the item stored, if any, agrees with its slot. -/
theorem Ready.callback (h : Ready lzo s) (c : Callback) :
    Ready lzo (callback lzo hashCombine s c) ∧
      (Intact (callback lzo hashCombine s c) ↔
        Intact s ∧ ∀ x, storedItem hashCombine s c = some x → SlotAgrees x s) := by
  have hneutral : storedItem hashCombine s c = none → ∀ s', Neutral lzo s s' →
      Ready lzo s' ∧ (Intact s' ↔
        Intact s ∧ ∀ x, storedItem hashCombine s c = some x → SlotAgrees x s) := by
    intro hn s' hs'
    exact ⟨hs'.1, by rw [hs'.2, hn]; simp⟩
  have hput : ∀ x s', storedItem hashCombine s c = some x → Neutral lzo s s' →
      (SlotAgrees x s' ↔ SlotAgrees x s) → Ready lzo (Rtl.putItem lzo x s') ∧
        (Intact (Rtl.putItem lzo x s') ↔
          Intact s ∧ ∀ x, storedItem hashCombine s c = some x → SlotAgrees x s) := by
    intro x s' hx hs' hslot
    obtain ⟨h1, h2⟩ := hs'.1.putItem x
    refine ⟨h1, h2.trans ?_⟩
    rw [hs'.2, hslot, hx]
    simp
  have hsame : Neutral lzo s s := ⟨h, Iff.rfl⟩
  cases c with
  | access asize atype addr callerpc =>
    unfold Rtl.callback saveAccess
    dsimp only
    split
    · rename_i hmem
      exact hneutral (by simp [storedItem, hmem]) s hsame
    · rename_i hmem
      exact hput _ _ (by simp [storedItem, hmem]) (h.relabel _ s.status s.bid s.offset s.span)
        Iff.rfl
  | mutexAcquired kind waitId => exact hput _ s rfl hsame Iff.rfl
  | mutexReleased kind waitId => exact hput _ s rfl hsame Iff.rfl
  | parallelBegin parentTask pid threadNum teamSize =>
    exact hneutral rfl _ (h.parallelBegin parentTask pid threadNum teamSize)
  | parallelEnd => exact hneutral rfl s hsame
  | implicitTaskBegin par teamSize threadNum =>
    exact hneutral rfl _ (h.implicitTaskBegin par teamSize threadNum)
  | implicitTaskEnd =>
    exact hneutral rfl _ (h.relabel s.set (s.status - 1) s.bid s.offset s.span)
  | syncRegionBegin kind par => exact hneutral rfl _ (h.syncRegionBegin kind par)
  | syncRegionEnd => exact hneutral rfl s hsame

/-! ## Every schedule -/

theorem Ready.step (h : Ready lzo s) (e : Event) : Ready lzo (step lzo hashCombine s e) := by
  cases e with
  | call c => exact (h.callback c).1
  | background => exact h.runDump

/-- **The step law.**  After an event the dumps are intact exactly if they were
before it and the event is harmless. -/
theorem intact_step (h : Ready lzo s) (e : Event) :
    Intact (step lzo hashCombine s e) ↔ Intact s ∧ Harmless hashCombine s e := by
  cases e with
  | call c => exact (h.callback c).2
  | background => rw [Rtl.step, intact_runDump]; simp [Harmless]

theorem ready_onThreadBegin (lzo : Lzo) : Ready lzo onThreadBegin :=
  ⟨bufferInv_onThreadBegin lzo, numOfAccesses_pos⟩

theorem ready_run (h : Ready lzo s) (evs : List Event) : Ready lzo (run lzo hashCombine s evs) :=
  Run.invariant (P := Ready lzo) (fun _ e hs => hs.step e) h evs

theorem run_background (evs : List Event) :
    run lzo hashCombine s (evs ++ [.background]) = runDump lzo (run lzo hashCombine s evs) :=
  Run.exec_concat ..

theorem guarded_run_append {as bs : List Event} :
    Run.Guarded (step lzo hashCombine) (Harmless hashCombine) s (as ++ bs) ↔
      Run.Guarded (step lzo hashCombine) (Harmless hashCombine) s as ∧
        Run.Guarded (step lzo hashCombine) (Harmless hashCombine) (run lzo hashCombine s as) bs :=
  Run.guarded_append

theorem intact_run_iff (h : Ready lzo s) (evs : List Event) :
    Intact (run lzo hashCombine s evs) ↔
      Intact s ∧ Run.Guarded (step lzo hashCombine) (Harmless hashCombine) s evs :=
  Run.iff_guarded (fun _ e hs => hs.step e) (fun _ e hs => intact_step hs e) h evs

/-- The dumps executed so far wrote the posted blocks, in order, hence the items
put into the buffer up to the last completed flush; and that is what the data
file holds. -/
structure Written (lzo : Lzo) (s : Tls) : Prop where
  blocks : s.hist.dumped <+: s.hist.posted
  items : s.hist.dumped.flatten <+: s.items
  datafile : s.datafile = s.hist.dumped.flatMap (frame lzo)

theorem Ready.posted_prefix (h : Ready lzo s) : s.hist.posted.flatten <+: s.items :=
  ⟨_, h.items⟩

theorem Ready.written (h : Ready lzo s) (hi : Intact s) : Written lzo s := by
  have hb : s.hist.dumped <+: s.hist.posted := by
    rw [← hi, Tls.settled]
    cases s.fut with
    | none => exact List.prefix_rfl
    | some d => exact List.prefix_append _ _
  exact ⟨hb, hb.flatten.trans h.posted_prefix, h.datafile⟩

/-- Once the dump in flight is executed, the written blocks are the posted ones
exactly if the dumps were intact. -/
theorem Ready.written_runDump_iff (h : Ready lzo s) :
    Written lzo (Rtl.runDump lzo s) ↔ Intact s := by
  constructor
  · intro hw
    have hp := hw.blocks
    rw [dumped_runDump, posted_runDump] at hp
    exact hp.eq_of_length h.length_settled
  · intro hi
    exact h.runDump.written (intact_runDump.2 hi)

/-- **Double buffering.**  Under every schedule of the background task, what has
been written is what was posted — in every state of the history, and however
soon or late the dump in flight is executed — exactly if no item stored while a
dump is in flight changes the slot it is stored into. -/
theorem dumps_intact_iff (lzo : Lzo) (hashCombine : UInt64 → UInt64 → UInt64)
    (evs : List Event) :
    (∀ p, p <+: evs → Written lzo (run lzo hashCombine onThreadBegin p) ∧
      Written lzo (run lzo hashCombine onThreadBegin (p ++ [.background]))) ↔
    Run.Guarded (step lzo hashCombine) (Harmless hashCombine) onThreadBegin evs := by
  have h0 := ready_onThreadBegin lzo
  constructor
  · intro h
    have hw := (h evs List.prefix_rfl).2
    rw [run_background, (ready_run h0 evs).written_runDump_iff, intact_run_iff h0] at hw
    exact hw.2
  · rintro hg p ⟨q, rfl⟩
    have hi := (intact_run_iff h0 p).2 ⟨intact_onThreadBegin, (Run.guarded_append.1 hg).1⟩
    have hr : Ready lzo (run lzo hashCombine onThreadBegin p) := ready_run h0 p
    refine ⟨hr.written hi, ?_⟩
    rw [run_background]
    exact hr.written_runDump_iff.2 hi

/-! ## An item that overtakes its dump -/

/-- A critical section entered and left `n` times. -/
def lockCycle (waitId : UInt64) (n : Nat) : List Event :=
  (List.replicate n [.call (.mutexAcquired 0 waitId), .call (.mutexReleased 0 waitId)]).flatten

/-- Calls that put an item into the buffer whatever the filter holds. -/
def MutexCall (lzo : Lzo) (hashCombine : UInt64 → UInt64 → UInt64) (e : Event) : Prop :=
  ∃ x, ∀ s, step lzo hashCombine s e = putItem lzo x s

theorem mutexCall_of_mem_lockCycle {waitId : UInt64} {n : Nat} {e : Event}
    (he : e ∈ lockCycle waitId n) : MutexCall lzo hashCombine e := by
  obtain ⟨l, hl, hel⟩ := List.mem_flatten.1 he
  rw [List.eq_of_mem_replicate hl] at hel
  rcases List.mem_pair.1 hel with rfl | rfl
  · exact ⟨_, fun _ => rfl⟩
  · exact ⟨_, fun _ => rfl⟩

/-- Filling the rest of an idle buffer, whose first slot is taken, posts it with
that slot unchanged, and leaves the dump in flight. -/
theorem run_fill {evs : List Event} (hm : ∀ e ∈ evs, MutexCall lzo hashCombine e) :
    ∀ {s : Tls} {y : TraceItem}, Ready lzo s → s.fut = none → 0 < s.idx →
      s.idx + evs.length = numOfAccesses → s.accesses1[0]? = some y →
      (run lzo hashCombine s evs).idx = 0 ∧
        (run lzo hashCombine s evs).fut = some ⟨.accesses1, numOfAccesses⟩ ∧
        (run lzo hashCombine s evs).accesses1[0]? = some y := by
  induction evs with
  | nil =>
    intro s y h _ _ hlen _
    have := h.idx_lt
    simp at hlen
    omega
  | cons e evs ih =>
    intro s y h hf h0 hlen hy
    obtain ⟨x, hx⟩ := hm e List.mem_cons_self
    have hbump := h.toBufferInv.storeItem_eq x
    have hy' : (bumpItem x s).accesses1[0]? = some y := by
      rw [hbump, List.getElem?_set_ne (by omega)]
      exact hy
    have hf' : (bumpItem x s).fut = none := by rw [hbump]; exact hf
    rw [List.length_cons] at hlen
    rw [run, Run.exec_cons, hx s, ← run]
    by_cases hfull : s.idx + 1 = numOfAccesses
    · -- the last slot: the buffer is posted, and nothing follows
      have hnil : evs = [] := List.eq_nil_of_length_eq_zero (by omega)
      have hacc : (bumpItem x s).accesses = .accesses1 := by rw [hbump]; exact h.accesses
      rw [hnil, putItem_eq, if_pos hfull, flushBuffer_eq]
      simp [run, runDump, hf', hacc, hy']
    · have hb := h.toBufferInv.bumpItem h.idx_lt x
      have hidx : (bumpItem x s).idx = s.idx + 1 := rfl
      rw [putItem_eq, if_neg hfull]
      refine ih (fun e he => hm e (List.mem_cons_of_mem _ he)) ⟨hb, ?_⟩ hf' ?_ ?_ hy'
      · have := h.idx_lt
        omega
      · omega
      · omega

theorem length_lockCycle (waitId : UInt64) (n : Nat) : (lockCycle waitId n).length = n * 2 := by
  simp [lockCycle]

theorem lockCycle_succ (waitId : UInt64) (n : Nat) :
    lockCycle waitId (n + 1) = .call (.mutexAcquired 0 waitId) ::
      .call (.mutexReleased 0 waitId) :: lockCycle waitId n := rfl

/-- After as many critical sections as fill a buffer, the dump is in flight and
the buffer still begins with the first acquisition. -/
theorem run_lockCycle (lzo : Lzo) (hashCombine : UInt64 → UInt64 → UInt64) (waitId : UInt64) :
    (run lzo hashCombine onThreadBegin (lockCycle waitId 12500)).idx = 0 ∧
      (run lzo hashCombine onThreadBegin (lockCycle waitId 12500)).fut =
        some ⟨.accesses1, numOfAccesses⟩ ∧
      (run lzo hashCombine onThreadBegin (lockCycle waitId 12500)).accesses1[0]? =
        some (.mutexAcquired ⟨0, waitId⟩) := by
  have h0 := ready_onThreadBegin lzo
  have hne : onThreadBegin.idx + 1 ≠ numOfAccesses := by decide
  have hb := h0.toBufferInv.storeItem_eq (.mutexAcquired ⟨0, waitId⟩)
  have hfirst : step lzo hashCombine onThreadBegin (.call (.mutexAcquired 0 waitId)) =
      bumpItem (.mutexAcquired ⟨0, waitId⟩) onThreadBegin := by
    rw [show step lzo hashCombine onThreadBegin (.call (.mutexAcquired 0 waitId)) =
      putItem lzo (.mutexAcquired ⟨0, waitId⟩) onThreadBegin from rfl, putItem_eq, if_neg hne]
  have hmem : ∀ e ∈ Event.call (.mutexReleased 0 waitId) :: lockCycle waitId 12499,
      MutexCall lzo hashCombine e := by
    intro e he
    rcases List.mem_cons.1 he with rfl | he
    · exact ⟨_, fun _ => rfl⟩
    · exact mutexCall_of_mem_lockCycle he
  have hidx : (bumpItem (.mutexAcquired ⟨0, waitId⟩) onThreadBegin).idx = 1 := rfl
  rw [lockCycle_succ waitId 12499, run, Run.exec_cons, hfirst, ← run]
  refine run_fill hmem ⟨h0.toBufferInv.bumpItem h0.idx_lt _, ?_⟩ ?_ ?_ ?_ ?_
  · rw [hidx]; decide
  · rw [hb]; rfl
  · rw [hidx]; decide
  · rw [hidx, List.length_cons, length_lockCycle]; decide
  · rw [hb]; rfl

/-- A thread that enters and leaves a critical section until its buffer is full,
and enters another one before the background task gets to run. -/
def overtakingHistory : List Event := lockCycle 1 12500 ++ [.call (.mutexAcquired 0 2)]

/-- The dump of the full buffer then begins with the item that came after it. -/
theorem overtaking_not_written :
    ¬ Written Lzo.stored
      (run Lzo.stored boostHashCombine onThreadBegin (overtakingHistory ++ [.background])) := by
  intro hw
  have h0 := ready_onThreadBegin Lzo.stored
  obtain ⟨hidx, hfut, hslot⟩ := run_lockCycle Lzo.stored boostHashCombine 1
  have hr : Ready Lzo.stored (run Lzo.stored boostHashCombine onThreadBegin overtakingHistory) :=
    ready_run h0 overtakingHistory
  rw [run_background, hr.written_runDump_iff, intact_run_iff h0, overtakingHistory,
    guarded_run_append] at hw
  have hg := hw.2.2.1
  generalize run Lzo.stored boostHashCombine onThreadBegin (lockCycle 1 12500) = t at *
  have hlt : t.idx < numOfAccesses := hidx.symm ▸ numOfAccesses_pos
  have hagree := hg _ rfl _ hfut hlt
  rw [hidx, Tls.buffer, hslot] at hagree
  simp at hagree

end Rtl
end Sword
