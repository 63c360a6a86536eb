import Sword.Rtl.DoubleBuffer
import Sword.Rtl.HashSet

/-!
# The filter of `SAVE_ACCESS`

The state machine of the runtime takes `set` for a set of hashes.  Here it is the table it
really is: `SAVE_ACCESS` asks `check_insert`, and the two dump macros clear the table.  The
set of the state machine remains as a history variable, the hashes of the items that
`SAVE_ACCESS` has put into the buffer since the last `set.clear()`; no decision looks at it.

* `Filtered`, `Filtered.run` — the runtime with the table.
* `TableInv` — the table holds exactly those hashes, and never more of them than there are
  items in the buffer.
* `step_spec`, `run_spec` — the runtime with the table does what the state machine does.
* `filter_exact` — the filter is exact, it has a free bucket at every insertion, and the
  buffer has room for every item.
-/

namespace Sword
namespace Rtl

/-- `SET_SIZE`. -/
def setSize : ℕ := 87382

/-- The thread-local variables, with the table behind `set`. -/
structure Filtered where
  tls : Tls
  /-- `set` -/
  table : HashSet

namespace Filtered

/-! ## The macros and the callbacks -/

section Machine

variable (lzo : Lzo) (hashCombine : UInt64 → UInt64 → UInt64) (turns : ℕ)

/-- The common tail of the two dump macros, with `set.clear()`. -/
def flushBuffer (nmemb : ℕ) (s : Filtered) : Filtered :=
  ⟨Rtl.flushBuffer lzo nmemb s.tls, s.table.clear⟩

/-- `DUMP_TO_FILE`. -/
def dumpToFileM (s : Filtered) : Filtered :=
  let s := { s with tls.idx := s.tls.idx + 1 }
  if s.tls.idx = numOfAccesses then s.flushBuffer lzo numOfAccesses else s

/-- `DUMPNOCHECK_TO_FILE`. -/
def dumpnocheckToFileM (s : Filtered) : Filtered :=
  if 0 < s.tls.idx then s.flushBuffer lzo s.tls.idx else s

/-- An item goes into the buffer: the store and `DUMP_TO_FILE` after it. -/
def putItem (x : TraceItem) (s : Filtered) : Filtered :=
  dumpToFileM lzo { s with tls := storeItem x s.tls }

/-- `SAVE_ACCESS`. -/
def saveAccess (asize : AccessSize) (atype : AccessType) (addr callerpc : UInt64)
    (s : Filtered) : Option Filtered := do
  let item := TraceItem.dataAccess (Access.make asize atype addr callerpc)
  let (table, inserted) ← s.table.checkInsert turns (hashValue hashCombine item)
  if inserted then
    let tls := { s.tls with set := insert (hashValue hashCombine item) s.tls.set }
    some (putItem lzo item ⟨tls, table⟩)
  else some { s with table := table }

/-- `on_ompt_callback_thread_begin`, with `set.reserve(SET_SIZE)`. -/
def onThreadBegin : Option Filtered := do
  let table ← HashSet.default.reserve turns setSize
  some ⟨Rtl.onThreadBegin, table⟩

/-- `on_ompt_callback_implicit_task` with `ompt_scope_begin`. -/
def onImplicitTaskBegin (par : ParallelData) (teamSize threadNum : UInt32) (s : Filtered) :
    Filtered :=
  let s := { s with tls.status := par.level }
  if s.tls.status = 1 then
    let s := dumpnocheckToFileM lzo { s with tls.bid := 0 }
    let tls := writeMetaLine par threadNum teamSize (futWait lzo s.tls)
    let tls := if tls.span = 0 then { tls with offset := threadNum, span := teamSize } else tls
    { s with tls := tls }
  else s

/-- `on_ompt_callback_sync_region` with `ompt_scope_begin`. -/
def onSyncRegionBegin (par : ParallelData) (s : Filtered) : Filtered :=
  let s := dumpnocheckToFileM lzo s
  let tls := futWait lzo s.tls
  let tls := writeMetaLine par tls.offset tls.span tls
  { s with tls := { tls with bid := tls.bid + 1 } }

/-- One call into the runtime. -/
def callback (s : Filtered) : Callback → Option Filtered
  | .access asize atype addr callerpc =>
      saveAccess lzo hashCombine turns asize atype addr callerpc s
  | .mutexAcquired kind waitId => some (putItem lzo (.mutexAcquired ⟨kind, waitId⟩) s)
  | .mutexReleased kind waitId => some (putItem lzo (.mutexReleased ⟨kind, waitId⟩) s)
  | .parallelBegin parentTask pid threadNum teamSize =>
      some { s with tls := (onParallelBegin parentTask pid threadNum teamSize s.tls).1 }
  | .parallelEnd => some s
  | .implicitTaskBegin par teamSize threadNum =>
      some (onImplicitTaskBegin lzo par teamSize threadNum s)
  | .implicitTaskEnd => some { s with tls := onImplicitTaskEnd s.tls }
  | .syncRegionBegin _ par => some (onSyncRegionBegin lzo par s)
  | .syncRegionEnd => some s

/-- One event. -/
def step (s : Filtered) : Event → Option Filtered
  | .call c => callback lzo hashCombine turns s c
  | .background => some { s with tls := runDump lzo s.tls }

/-- A history from the begin of the thread on. -/
def run (evs : List Event) : Option Filtered :=
  (onThreadBegin turns).bind fun s => evs.foldlM (step lzo hashCombine turns) s

end Machine

/-! ## The invariant -/

/-- The number of buckets that `set.reserve(SET_SIZE)` comes to. -/
def numBuckets : ℕ := 2 ^ 18

/-- The table holds the hashes of the items put since it was cleared. -/
structure TableInv (s : Filtered) : Prop where
  holds : s.table.Holds s.tls.set
  buckets : s.table.numBuckets = numBuckets
  card_le : s.tls.set.card ≤ s.tls.idx

variable {lzo : Lzo} {hashCombine : UInt64 → UInt64 → UInt64} {turns : ℕ} {s : Filtered}

/-- There are more buckets than items in a buffer. -/
theorem TableInv.card_lt (h : s.TableInv) (hidx : s.tls.idx < numOfAccesses) :
    s.tls.set.card < s.table.numBuckets := by
  have hle := h.card_le
  have hsize : numOfAccesses < numBuckets := by decide
  rw [h.buckets]
  omega

/-- What neither puts items nor clears the table. -/
theorem TableInv.congr (h : s.TableInv) {tls : Tls} (hset : tls.set = s.tls.set)
    (hidx : tls.idx = s.tls.idx) : TableInv { s with tls := tls } where
  holds := by
    show s.table.Holds tls.set
    rw [hset]
    exact h.holds
  buckets := h.buckets
  card_le := by
    show tls.set.card ≤ tls.idx
    rw [hset, hidx]
    exact h.card_le

/-- Flushing empties the table, whatever it held. -/
theorem tableInv_flushBuffer (tls : Tls) {table : HashSet} {keys : Finset UInt64}
    (h : table.Holds keys) (hb : table.numBuckets = numBuckets) (n : ℕ) :
    (flushBuffer lzo n ⟨tls, table⟩).TableInv where
  holds := by
    show table.clear.Holds (Rtl.flushBuffer lzo n tls).set
    rw [flushBuffer_eq]
    exact h.clear
  buckets := hb
  card_le := by
    show (Rtl.flushBuffer lzo n tls).set.card ≤ _
    rw [flushBuffer_eq]
    exact Nat.zero_le _

theorem set_storeItem (x : TraceItem) (tls : Tls) : (storeItem x tls).set = tls.set := by
  unfold storeItem
  cases tls.accesses <;> rfl

theorem idx_storeItem (x : TraceItem) (tls : Tls) : (storeItem x tls).idx = tls.idx := by
  unfold storeItem
  cases tls.accesses <;> rfl

/-- The item put may be the one whose hash has just been inserted. -/
theorem tableInv_putItem (h : s.table.Holds s.tls.set) (hb : s.table.numBuckets = numBuckets)
    (hcard : s.tls.set.card ≤ s.tls.idx + 1) (x : TraceItem) : (s.putItem lzo x).TableInv := by
  rw [putItem, dumpToFileM]
  dsimp only
  split
  · exact tableInv_flushBuffer _ h hb _
  · refine ⟨?_, hb, ?_⟩
    · show s.table.Holds (storeItem x s.tls).set
      rw [set_storeItem]
      exact h
    · show (storeItem x s.tls).set.card ≤ (storeItem x s.tls).idx + 1
      rw [set_storeItem, idx_storeItem]
      exact hcard

theorem TableInv.dumpnocheck (h : s.TableInv) : (s.dumpnocheckToFileM lzo).TableInv := by
  rw [dumpnocheckToFileM]
  split
  · exact tableInv_flushBuffer _ h.holds h.buckets _
  · exact h

/-! ## What the macros do to the thread-local variables -/

theorem tls_putItem (x : TraceItem) : (s.putItem lzo x).tls = Rtl.putItem lzo x s.tls := by
  rw [putItem, dumpToFileM, Rtl.putItem, Rtl.dumpToFileM]
  dsimp only
  split
  · rfl
  · rfl

theorem tls_dumpnocheckToFileM :
    (s.dumpnocheckToFileM lzo).tls = Rtl.dumpnocheckToFileM lzo s.tls := by
  rw [dumpnocheckToFileM, Rtl.dumpnocheckToFileM]
  split
  · rfl
  · rfl

theorem tls_onImplicitTaskBegin (par : ParallelData) (teamSize threadNum : UInt32) :
    (s.onImplicitTaskBegin lzo par teamSize threadNum).tls =
      Rtl.onImplicitTaskBegin lzo par teamSize threadNum s.tls := by
  rw [onImplicitTaskBegin, Rtl.onImplicitTaskBegin]
  dsimp only
  split
  · rw [tls_dumpnocheckToFileM]
  · rfl

theorem tls_onSyncRegionBegin (kind : SyncRegionKind) (par : ParallelData) :
    (s.onSyncRegionBegin lzo par).tls = Rtl.onSyncRegionBegin lzo kind par s.tls := by
  rw [onSyncRegionBegin, Rtl.onSyncRegionBegin]
  dsimp only
  rw [tls_dumpnocheckToFileM]

theorem set_onParallelBegin (parentTask : ParallelData) (pid : OmptId)
    (threadNum teamSize : UInt32) (tls : Tls) :
    (onParallelBegin parentTask pid threadNum teamSize tls).1.set = tls.set ∧
      (onParallelBegin parentTask pid threadNum teamSize tls).1.idx = tls.idx := by
  unfold onParallelBegin
  dsimp only
  split
  · exact ⟨rfl, rfl⟩
  · split
    · exact ⟨rfl, rfl⟩
    · exact ⟨rfl, rfl⟩

theorem TableInv.implicitTaskBegin (h : s.TableInv) (par : ParallelData)
    (teamSize threadNum : UInt32) :
    (s.onImplicitTaskBegin lzo par teamSize threadNum).TableInv := by
  rw [onImplicitTaskBegin]
  dsimp only
  split
  · have h1 : TableInv { s with tls := { s.tls with status := par.level, bid := 0 } } :=
      h.congr rfl rfl
    refine (@TableInv.dumpnocheck lzo _ h1).congr ?_ ?_
    · split
      · exact set_runDump
      · exact set_runDump
    · split
      · exact idx_runDump
      · exact idx_runDump
  · exact h.congr rfl rfl

theorem TableInv.syncRegionBegin (h : s.TableInv) (par : ParallelData) :
    (s.onSyncRegionBegin lzo par).TableInv :=
  (@TableInv.dumpnocheck lzo _ h).congr set_runDump idx_runDump

theorem items_runDump (tls : Tls) : (runDump lzo tls).items = tls.items := by
  unfold runDump
  cases tls.fut <;> rfl

/-- An item put is the last of all items, whether the buffer is flushed or not. -/
theorem items_putItem (x : TraceItem) (tls : Tls) :
    (Rtl.putItem lzo x tls).items = tls.items ++ [x] := by
  have hbump : (bumpItem x tls).items = tls.items ++ [x] := by
    unfold bumpItem storeItem
    cases tls.accesses <;> simp [Tls.items]
  rw [putItem_eq]
  split
  · rw [flushBuffer_eq, ← hbump]
    exact items_runDump _
  · exact hbump

/-! ## The step -/

/-- **`SAVE_ACCESS`** decides as if it asked the set. -/
theorem saveAccess_spec (h : s.TableInv) (hidx : s.tls.idx < numOfAccesses)
    (hturns : numBuckets ≤ turns) (asize : AccessSize) (atype : AccessType)
    (addr callerpc : UInt64) :
    ∃ s', s.saveAccess lzo hashCombine turns asize atype addr callerpc = some s' ∧
      s'.tls = Rtl.saveAccess lzo hashCombine asize atype addr callerpc s.tls ∧ s'.TableInv := by
  unfold saveAccess Rtl.saveAccess
  dsimp only
  generalize TraceItem.dataAccess (Access.make asize atype addr callerpc) = item
  obtain ⟨table, hinsert, hholds, hb⟩ := h.holds.checkInsert_spec (h.card_lt hidx)
    (h.buckets.trans_le hturns) (hashValue hashCombine item)
  rw [h.buckets] at hb
  rw [hinsert]
  by_cases hmem : hashValue hashCombine item ∈ s.tls.set
  · rw [if_pos hmem]
    refine ⟨{ s with table := table }, by simp [hmem], rfl, ?_⟩
    rw [Finset.insert_eq_of_mem hmem] at hholds
    exact ⟨hholds, hb, h.card_le⟩
  · rw [if_neg hmem]
    refine ⟨putItem lzo item
      ⟨{ s.tls with set := insert (hashValue hashCombine item) s.tls.set }, table⟩,
      by simp [hmem], tls_putItem item, tableInv_putItem hholds hb ?_ item⟩
    rw [Finset.card_insert_of_notMem hmem]
    exact Nat.succ_le_succ h.card_le

/-- **The simulation step.**  The runtime with the table takes the step of the state
machine. -/
theorem step_spec (h : s.TableInv) (hidx : s.tls.idx < numOfAccesses) (hturns : numBuckets ≤ turns)
    (e : Event) : ∃ s', s.step lzo hashCombine turns e = some s' ∧
      s'.tls = Rtl.step lzo hashCombine s.tls e ∧ s'.TableInv := by
  have hcard : s.tls.set.card ≤ s.tls.idx + 1 := h.card_le.trans (Nat.le_succ _)
  cases e with
  | background => exact ⟨_, rfl, rfl, h.congr set_runDump idx_runDump⟩
  | call c =>
    cases c with
    | access asize atype addr callerpc =>
      exact saveAccess_spec h hidx hturns asize atype addr callerpc
    | mutexAcquired kind waitId =>
      exact ⟨_, rfl, tls_putItem _, tableInv_putItem h.holds h.buckets hcard _⟩
    | mutexReleased kind waitId =>
      exact ⟨_, rfl, tls_putItem _, tableInv_putItem h.holds h.buckets hcard _⟩
    | parallelBegin parentTask pid threadNum teamSize =>
      obtain ⟨hset, hidx⟩ := set_onParallelBegin parentTask pid threadNum teamSize s.tls
      exact ⟨_, rfl, rfl, h.congr hset hidx⟩
    | parallelEnd => exact ⟨_, rfl, rfl, h⟩
    | implicitTaskBegin par teamSize threadNum =>
      exact ⟨_, rfl, tls_onImplicitTaskBegin .., h.implicitTaskBegin ..⟩
    | implicitTaskEnd => exact ⟨_, rfl, rfl, h.congr rfl rfl⟩
    | syncRegionBegin kind par =>
      exact ⟨_, rfl, tls_onSyncRegionBegin kind par, h.syncRegionBegin par⟩
    | syncRegionEnd => exact ⟨_, rfl, rfl, h⟩

/-! ## Every history -/

theorem onThreadBegin_spec (turns : ℕ) :
    ∃ s, onThreadBegin turns = some s ∧ s.tls = Rtl.onThreadBegin ∧ s.TableInv := by
  obtain ⟨table, hreserve, hholds, hb⟩ :=
    @HashSet.reserve_spec setSize 18 (by decide) (by decide) turns
  refine ⟨⟨Rtl.onThreadBegin, table⟩, ?_, rfl, ⟨hholds, hb, le_rfl⟩⟩
  rw [onThreadBegin, hreserve]
  rfl

/-- **The simulation.**  Every history of the runtime with the table runs to its end, and is
the history of the state machine. -/
theorem run_spec (lzo : Lzo) (hashCombine : UInt64 → UInt64 → UInt64) {turns : ℕ}
    (hturns : numBuckets ≤ turns) (evs : List Event) :
    ∃ s, run lzo hashCombine turns evs = some s ∧
      s.tls = Rtl.run lzo hashCombine Rtl.onThreadBegin evs ∧ s.TableInv := by
  obtain ⟨s, hbegin, htls, hinv⟩ := onThreadBegin_spec turns
  rw [run, hbegin, ← htls]
  have hready : Ready lzo s.tls := htls ▸ ready_onThreadBegin lzo
  show ∃ s', evs.foldlM _ s = some s' ∧ _
  clear hbegin htls
  induction evs generalizing s with
  | nil => exact ⟨s, rfl, rfl, hinv⟩
  | cons e evs ih =>
    obtain ⟨s', hstep, htls', hinv'⟩ := @step_spec lzo hashCombine turns s hinv hready.idx_lt
      hturns e
    obtain ⟨s'', hrun, htls'', hinv''⟩ := ih s' hinv' (htls' ▸ hready.step e)
    refine ⟨s'', ?_, ?_, hinv''⟩
    · rw [List.foldlM_cons, hstep]
      exact hrun
    · rw [htls'', htls']
      rfl

/-- What the filter must be in a state.

* `exact`: the next access goes into the buffer exactly if none with its hash has been put
  there by `SAVE_ACCESS` since the table was cleared.
* `free`: a bucket of the table is not filled, so that the second loop of `find_or_allocate`
  ends.
* `room`: the next item is stored at an index below `NUM_OF_ACCESSES`. -/
structure FilterExact (lzo : Lzo) (hashCombine : UInt64 → UInt64 → UInt64) (turns : ℕ)
    (s : Filtered) : Prop where
  exact : ∀ asize atype addr callerpc,
    let item := TraceItem.dataAccess (Access.make asize atype addr callerpc)
    ∃ s', s.saveAccess lzo hashCombine turns asize atype addr callerpc = some s' ∧
      s'.tls.items =
        if hashValue hashCombine item ∈ s.tls.set then s.tls.items else s.tls.items ++ [item]
  free : ∃ (b : ℕ) (state : State), s.table.states[b]? = some state ∧ state ≠ .filled
  room : s.tls.idx < numOfAccesses

/-- **The filter is an exact set and never fills up**, after every history.  The loop without
a bound of its own never takes more turns than there are buckets. -/
theorem filter_exact (lzo : Lzo) (hashCombine : UInt64 → UInt64 → UInt64) (turns : ℕ)
    (hturns : numBuckets ≤ turns) (evs : List Event) :
    ∃ s, run lzo hashCombine turns evs = some s ∧ FilterExact lzo hashCombine turns s := by
  obtain ⟨s, hrun, htls, hinv⟩ := run_spec lzo hashCombine hturns evs
  have hidx : s.tls.idx < numOfAccesses := by
    rw [htls]
    exact (ready_run (ready_onThreadBegin lzo) evs).idx_lt
  refine ⟨s, hrun, ⟨?_, ?_, hidx⟩⟩
  · intro asize atype addr callerpc item
    obtain ⟨s', hsave, htls', -⟩ := @saveAccess_spec lzo hashCombine turns s hinv hidx hturns
      asize atype addr callerpc
    refine ⟨s', hsave, ?_⟩
    rw [htls', Rtl.saveAccess]
    split
    · rfl
    · exact items_putItem item _
  · obtain ⟨b, -, hstate, -⟩ := hinv.holds.exists_free (hinv.card_lt hidx)
    exact ⟨b, .inactive, hstate, by decide⟩

theorem filter_exact_oneAccess :
    ∃ s, run Lzo.stored boostHashCombine numBuckets [.call (.access .size4 .unsafeWrite 4096 64)] =
      some s ∧ FilterExact Lzo.stored boostHashCombine numBuckets s :=
  filter_exact Lzo.stored boostHashCombine numBuckets le_rfl _

end Filtered

end Rtl
end Sword
