import Sword.Lib.Tombstones
import Sword.Rtl.HashSet

/-!
# The whole interface of the table: `rtl/sword_hashset.h`

`Sword.Rtl.HashSet` has the operations the runtime uses, of a table that nothing is ever erased
from.  Here are the others: lookup, erasure by key and by iterator, insertion of a key known
to be new, iteration.  An iterator is the bucket it is at; `end()` is the number of buckets.

* `Stores` — the invariant of a table with erased buckets.
* `Stores.findFilledBucket_spec`, `Stores.findOrAllocate_spec`, `Stores.findEmptyBucket_spec` —
  the three ways to probe.
* `Stores.insert_spec`, `Stores.vacated_spec`, `Stores.clear`, `Stores.reserve_spec` — what the
  operations do, and when an insertion never returns.
* `Stores.skip_spec`, `Stores.walk_eq` — iteration.
-/

namespace Sword
namespace Rtl

open Tombstones

namespace HashSet

/-! ## The operations -/

/-- The loop of `find_filled_bucket`, for this many offsets. -/
def findFrom (t : HashSet) (key : UInt64) : ℕ → ℕ → Option (Option ℕ)
  | 0, _ => some none
  | turns + 1, offset => do
    let bucket := t.bucket key offset
    match ← t.states[bucket]? with
    | .filled =>
      if (← t.keys[bucket]?) = key then some (some bucket)
      else t.findFrom key turns (offset + 1)
    -- End of the chain!
    | .inactive => some none
    | .active => t.findFrom key turns (offset + 1)

/-- `find_filled_bucket`: the bucket with the key, if there is one. -/
def findFilledBucket (t : HashSet) (key : UInt64) : Option (Option ℕ) :=
  if t.numFilled = 0 then some none else t.findFrom key (t.maxProbeLength + 1).toNat 0

/-- `find` -/
def find (t : HashSet) (key : UInt64) : Option ℕ := do
  some ((← t.findFilledBucket key).getD t.numBuckets)

/-- `contains` -/
def contains (t : HashSet) (key : UInt64) : Option Bool := do
  some (← t.findFilledBucket key).isSome

/-- `count` -/
def count (t : HashSet) (key : UInt64) : Option ℕ := do
  some (if (← t.findFilledBucket key).isSome then 1 else 0)

/-- `insert(const KeyT&)`: where the key is, and whether the insertion took place. -/
def insert (turns : ℕ) (t : HashSet) (key : UInt64) : Option (HashSet × ℕ × Bool) := do
  let (t, bucket) ← t.findOrAllocate turns key
  if (← t.states[bucket]?) = .filled then some (t, bucket, false)
  else some (t.fill bucket key, bucket, true)

/-- `insert_unique` -/
def insertUnique (turns : ℕ) (t : HashSet) (key : UInt64) : Option HashSet := do
  let (t, bucket) ← t.findEmptyBucket key turns 0
  some (t.fill bucket key)

/-- The key in the bucket is erased. -/
def vacate (t : HashSet) (bucket : ℕ) : HashSet :=
  { t with
    states := t.states.set bucket .active
    numFilled := t.numFilled - 1 }

/-- `erase(const KeyT&)`: whether the key was found. -/
def erase (t : HashSet) (key : UInt64) : Option (HashSet × Bool) := do
  match ← t.findFilledBucket key with
  | some bucket => some (t.vacate bucket, true)
  | none => some (t, false)

/-- The first filled bucket from this one on. -/
def skip (t : HashSet) (bucket : ℕ) : ℕ :=
  if bucket < t.numBuckets ∧ t.states[bucket]? ≠ some .filled then t.skip (bucket + 1) else bucket
termination_by t.numBuckets - bucket

/-- `begin` -/
def begin (t : HashSet) : ℕ := t.skip 0

/-- `goto_next_element` -/
def gotoNextElement (t : HashSet) (bucket : ℕ) : ℕ := t.skip (bucket + 1)

/-- `erase(iterator)`: the iterator to the next element.  Nothing checks that there is an
element to erase, but the write is out of bounds at `end()`. -/
def eraseAt (t : HashSet) (bucket : ℕ) : Option (HashSet × ℕ) :=
  if bucket < t.states.length then
    some (t.vacate bucket, (t.vacate bucket).gotoNextElement bucket)
  else none

/-- `for (; begin != end(); ++begin) visit(*begin)` -/
def walk (t : HashSet) : ℕ → ℕ → Option (List UInt64)
  | 0, _ => none
  | turns + 1, bucket =>
    if bucket = t.numBuckets then some []
    else do
      let key ← t.keys[bucket]?
      let rest ← t.walk turns (t.gotoNextElement bucket)
      some (key :: rest)

/-! ## The invariant -/

/-- What lies in a bucket. -/
def cell (t : HashSet) (b : ℕ) : Cell UInt64 :=
  match t.states[b]?, t.keys[b]? with
  | some .filled, some key => .key key
  | some .active, _ => .erased
  | _, _ => .untouched

/-- There are no arrays yet, or they have a power of two of buckets. -/
structure Formed (t : HashSet) : Prop where
  pow : 0 < t.numBuckets → ∃ m < 64, t.numBuckets = 2 ^ m ∧ t.mask = UInt64.ofNat (2 ^ m - 1)
  length_states : t.states.length = t.numBuckets
  length_keys : t.keys.length = t.numBuckets

/-- The table stores these keys. -/
structure Stores (t : HashSet) (keys : Finset UInt64) : Prop extends t.Formed where
  keeps : Keeps t.bucket t.cell (t.maxProbeLength + 1).toNat keys
  numFilled : t.numFilled = keys.card
  neg_one_le : -1 ≤ t.maxProbeLength
  /-- The probe length is an `int`, which it never leaves in a table of less than `2 ^ 31`
  buckets. -/
  probe_lt : t.maxProbeLength < t.numBuckets

variable {t : HashSet} {keys : Finset UInt64} {key : UInt64} {b : ℕ}

theorem Formed.sized (h : t.Formed) (hpos : 0 < t.numBuckets) : t.Sized :=
  ⟨h.pow hpos, h.length_states, h.length_keys⟩

/-- A bucket is untouched, erased, or filled with a key. -/
theorem Formed.cell_cases (h : t.Formed) (hb : b < t.numBuckets) :
    t.states[b]? = some .inactive ∧ t.cell b = .untouched ∨
      t.states[b]? = some .active ∧ t.cell b = .erased ∨
        ∃ k, t.states[b]? = some .filled ∧ t.keys[b]? = some k ∧ t.cell b = .key k := by
  obtain ⟨state, hstate⟩ : ∃ state, t.states[b]? = some state :=
    ⟨_, List.getElem?_eq_getElem (by rw [h.length_states]; exact hb)⟩
  obtain ⟨k, hkey⟩ : ∃ k, t.keys[b]? = some k :=
    ⟨_, List.getElem?_eq_getElem (by rw [h.length_keys]; exact hb)⟩
  cases state with
  | inactive => exact Or.inl ⟨hstate, by rw [cell, hstate]⟩
  | active => exact Or.inr (Or.inl ⟨hstate, by rw [cell, hstate]⟩)
  | filled => exact Or.inr (Or.inr ⟨k, hstate, hkey, by rw [cell, hstate, hkey]⟩)

theorem of_cell_eq_key (hc : t.cell b = .key key) :
    t.states[b]? = some .filled ∧ t.keys[b]? = some key := by
  unfold cell at hc
  split at hc
  · rename_i hstate hkey
    cases hc
    exact ⟨hstate, hkey⟩
  · cases hc
  · cases hc

theorem Formed.lt_of_cell_eq_key (h : t.Formed) (hc : t.cell b = .key key) :
    b < t.numBuckets := by
  rw [← h.length_states]
  exact List.getElem?_eq_some_iff.1 (of_cell_eq_key hc).1 |>.1

theorem Stores.mem_range (h : t.Stores keys) :
    ∀ b key, t.cell b = .key key → b ∈ Finset.range t.numBuckets :=
  fun _ _ hc => Finset.mem_range.2 (h.lt_of_cell_eq_key hc)

/-- **A table never stores more keys than it has buckets.** -/
theorem Stores.card_le (h : t.Stores keys) : keys.card ≤ t.numBuckets := by
  have hle := h.keeps.card_le h.mem_range
  rwa [Finset.card_range] at hle

theorem Stores.numBuckets_pos (h : t.Stores keys) (hmem : key ∈ keys) : 0 < t.numBuckets :=
  (Finset.card_pos.2 ⟨key, hmem⟩).trans_le h.card_le

/-- In a full table every bucket holds a key. -/
theorem Stores.key_of_full (h : t.Stores keys) (hfull : t.numBuckets ≤ keys.card)
    (hb : b < t.numBuckets) : ∃ k, t.cell b = .key k := by
  have hle : (Finset.range t.numBuckets).card ≤ keys.card := by rwa [Finset.card_range]
  exact h.keeps.all_keys h.mem_range hle (Finset.mem_range.2 hb)

theorem Stores.filled_of_full (h : t.Stores keys) (hfull : t.numBuckets ≤ keys.card)
    (hb : b < t.numBuckets) : t.states[b]? = some .filled := by
  obtain ⟨k, hk⟩ := h.key_of_full hfull hb
  exact (of_cell_eq_key hk).1

/-- In a table that is not, some bucket of the key's sequence is open. -/
theorem Stores.exists_open (h : t.Stores keys) (hlt : keys.card < t.numBuckets)
    (key : UInt64) : ∃ d < t.numBuckets, ∀ k, t.cell (t.bucket key d) ≠ .key k := by
  have hcard : keys.card < (Finset.range t.numBuckets).card := by rwa [Finset.card_range]
  obtain ⟨b, hb, hopen⟩ := h.keeps.exists_open hcard
  obtain ⟨d, hd, hhome⟩ := Probing.exists_add_mod_eq key.toNat (Finset.mem_range.1 hb)
  rw [← (h.sized (by omega)).bucket_eq] at hhome
  exact ⟨d, hd, by rwa [hhome]⟩

/-! ## Probing -/

/-- **`find_filled_bucket`** finds the key exactly if the table stores it. -/
theorem Stores.findFilledBucket_spec (h : t.Stores keys) (key : UInt64) :
    (key ∈ keys ∧ ∃ b, t.cell b = .key key ∧ t.findFilledBucket key = some (some b)) ∨
      (key ∉ keys ∧ t.findFilledBucket key = some none) := by
  by_cases hempty : t.numFilled = 0
  · refine Or.inr ⟨?_, by rw [findFilledBucket, if_pos hempty]⟩
    rw [h.numFilled, Finset.card_eq_zero] at hempty
    rw [hempty]
    exact Finset.notMem_empty key
  have hpos : 0 < t.numBuckets := by
    rw [h.numFilled] at hempty
    have := h.card_le
    omega
  rw [findFilledBucket, if_neg hempty]
  suffices hfind : ∀ turns offset, Skipped t.bucket t.cell key offset →
      offset + turns = (t.maxProbeLength + 1).toNat →
      (key ∈ keys ∧ ∃ b, t.cell b = .key key ∧ t.findFrom key turns offset = some (some b)) ∨
        (key ∉ keys ∧ t.findFrom key turns offset = some none) by
    exact hfind _ 0 skipped_zero (Nat.zero_add _)
  intro turns
  induction turns with
  | zero =>
    intro offset hpassed hoffset
    rw [Nat.add_zero] at hoffset
    exact Or.inr ⟨(hoffset ▸ hpassed).not_mem_of_bound h.keeps, rfl⟩
  | succ turns ih =>
    intro offset hpassed hoffset
    have hlt := (h.sized hpos).bucket_lt key offset
    rcases h.cell_cases hlt with ⟨hstate, hcell⟩ | ⟨hstate, hcell⟩ | ⟨k, hstate, hkey, hcell⟩
    · exact Or.inr ⟨hpassed.not_mem_of_untouched h.keeps hcell, by simp [findFrom, hstate]⟩
    · have hnext : t.findFrom key (turns + 1) offset = t.findFrom key turns (offset + 1) := by
        simp [findFrom, hstate]
      rw [hnext]
      exact ih _ (hpassed.succ (by simp [hcell]) (by simp [hcell])) (by omega)
    · by_cases heq : k = key
      · subst heq
        exact Or.inl ⟨(h.keeps.mem_iff k).2 ⟨_, hcell⟩, _, hcell,
          by simp [findFrom, hstate, hkey]⟩
      · have hnext : t.findFrom key (turns + 1) offset = t.findFrom key turns (offset + 1) := by
          simp [findFrom, hstate, hkey, heq]
        rw [hnext]
        exact ih _ (hpassed.succ (by simp [hcell]) (by simp [hcell, heq])) (by omega)

/-- The hole a search has seen: the first erased bucket of the sequence. -/
structure HoleBefore (t : HashSet) (key : UInt64) (offset : ℕ) (hole : Option ℕ) : Prop where
  erased : ∀ b ∈ hole, ∃ d < offset, t.bucket key d = b ∧ t.cell b = .erased
  none_iff : hole = none → ∀ e < offset, t.cell (t.bucket key e) ≠ .erased

/-- **The first loop of `find_or_allocate`** ends at the key, at a bucket never touched, or
with the hole it has seen. -/
theorem Stores.search_spec (h : t.Stores keys) (hpos : 0 < t.numBuckets) (turns : ℕ)
    {offset : ℕ} {hole : Option ℕ} (hpassed : Skipped t.bucket t.cell key offset)
    (hhole : t.HoleBefore key offset hole) :
    (∃ d < offset + turns, Skipped t.bucket t.cell key d ∧
        (t.cell (t.bucket key d) = .key key ∨ t.cell (t.bucket key d) = .untouched) ∧
          t.search key turns offset hole = some (.inl (t.bucket key d))) ∨
      Skipped t.bucket t.cell key (offset + turns) ∧ ∃ hole',
        t.HoleBefore key (offset + turns) hole' ∧
          t.search key turns offset hole = some (.inr hole') := by
  induction turns generalizing offset hole with
  | zero => exact Or.inr ⟨hpassed, hole, hhole, rfl⟩
  | succ turns ih =>
    have hlt := (h.sized hpos).bucket_lt key offset
    rw [← Nat.add_assoc, Nat.add_right_comm]
    rcases h.cell_cases hlt with ⟨hstate, hcell⟩ | ⟨hstate, hcell⟩ | ⟨k, hstate, hkey, hcell⟩
    · refine Or.inl ⟨offset, by omega, hpassed, Or.inr hcell, ?_⟩
      simp [search, hstate]
    · have hnext : t.search key (turns + 1) offset hole =
          t.search key turns (offset + 1) (hole.or (some (t.bucket key offset))) := by
        simp [search, hstate]
      rw [hnext]
      refine ih (hpassed.succ (by simp [hcell]) (by simp [hcell])) ⟨?_, ?_⟩
      · intro b hb
        cases hole with
        | none =>
          cases hb
          exact ⟨offset, Nat.lt_succ_self _, rfl, hcell⟩
        | some b' =>
          cases hb
          obtain ⟨d, hd, hrest⟩ := hhole.erased b rfl
          exact ⟨d, by omega, hrest⟩
      · intro hnone
        cases hole with
        | none => cases hnone
        | some b' => cases hnone
    · by_cases heq : k = key
      · subst heq
        refine Or.inl ⟨offset, by omega, hpassed, Or.inl hcell, ?_⟩
        simp [search, hstate, hkey]
      · have hnext : t.search key (turns + 1) offset hole =
            t.search key turns (offset + 1) hole := by
          simp [search, hstate, hkey, heq]
        rw [hnext]
        refine ih (hpassed.succ (by simp [hcell]) (by simp [hcell, heq])) ⟨?_, ?_⟩
        · intro b hb
          obtain ⟨d, hd, hrest⟩ := hhole.erased b hb
          exact ⟨d, by omega, hrest⟩
        · intro hnone e he
          rcases Nat.lt_succ_iff_lt_or_eq.1 he with he | rfl
          · exact hhole.none_iff hnone e he
          · simp [hcell]

/-- A bucket of the key's sequence that an insertion may fill, with the probe length it then
takes. -/
structure Vacant (t : HashSet) (key : UInt64) (d : ℕ) (probeLength : ℤ) : Prop where
  isOpen : ∀ k, t.cell (t.bucket key d) ≠ .key k
  path : ∀ e < d, t.cell (t.bucket key e) ≠ .untouched
  le : (d : ℤ) ≤ probeLength
  old_le : t.maxProbeLength ≤ probeLength
  lt : probeLength < t.numBuckets

/-- **The second loop of `find_or_allocate`** ends at the first open bucket, given the turns
to get to one. -/
theorem Stores.allocate_spec (h : t.Stores keys) {d : ℕ} (hd : d < t.numBuckets)
    (hopen : ∀ k, t.cell (t.bucket key d) ≠ .key k) (turns : ℕ) {offset : ℕ} (hle : offset ≤ d)
    (hlt : d < offset + turns) (hpath : ∀ e < offset, t.cell (t.bucket key e) ≠ .untouched)
    (hold : t.maxProbeLength ≤ offset) : ∃ c, t.Vacant key c c ∧
      t.allocate key turns offset = some ({ t with maxProbeLength := c }, t.bucket key c) := by
  induction turns generalizing offset with
  | zero => omega
  | succ turns ih =>
    have hbucket := (h.sized (by omega)).bucket_lt key offset
    by_cases hfilled : t.states[t.bucket key offset]? = some .filled
    · have hnext : t.allocate key (turns + 1) offset = t.allocate key turns (offset + 1) := by
        simp [allocate, hfilled]
      rcases h.cell_cases hbucket with ⟨hstate, -⟩ | ⟨hstate, -⟩ | ⟨k, -, -, hcell⟩
      · rw [hfilled] at hstate
        cases hstate
      · rw [hfilled] at hstate
        cases hstate
      have hne : offset ≠ d := by
        rintro rfl
        exact hopen k hcell
      rw [hnext]
      refine ih (by omega) (by omega) (fun e he => ?_) (by omega)
      rcases Nat.lt_succ_iff_lt_or_eq.1 he with he | rfl
      · exact hpath e he
      · simp [hcell]
    · refine ⟨offset, ⟨fun k hk => hfilled (of_cell_eq_key hk).1, hpath, le_rfl, hold, by omega⟩,
        ?_⟩
      obtain ⟨state, hstate⟩ : ∃ state, t.states[t.bucket key offset]? = some state :=
        ⟨_, List.getElem?_eq_getElem (by rw [h.length_states]; exact hbucket)⟩
      have hne : state ≠ .filled := by
        rintro rfl
        exact hfilled hstate
      simp [allocate, hstate, hne]

/-- In a full table the loops for an open bucket go on for ever. -/
theorem Stores.allocate_of_full (h : t.Stores keys) (hfull : t.numBuckets ≤ keys.card)
    (turns offset : ℕ) : t.allocate key turns offset = none := by
  induction turns generalizing offset with
  | zero => rfl
  | succ turns ih =>
    rcases Nat.eq_zero_or_pos t.numBuckets with hzero | hpos
    · have hnil := h.length_states
      rw [hzero, List.length_eq_zero_iff] at hnil
      simp [allocate, hnil]
    · have hfilled := h.filled_of_full hfull ((h.sized hpos).bucket_lt key offset)
      simp [allocate, hfilled, ih]

theorem Stores.findEmptyBucket_of_full (h : t.Stores keys) (hfull : t.numBuckets ≤ keys.card)
    (turns offset : ℕ) : t.findEmptyBucket key turns offset = none := by
  induction turns generalizing offset with
  | zero => rfl
  | succ turns ih =>
    rcases Nat.eq_zero_or_pos t.numBuckets with hzero | hpos
    · have hnil := h.length_states
      rw [hzero, List.length_eq_zero_iff] at hnil
      simp [findEmptyBucket, hnil]
    · have hfilled := h.filled_of_full hfull ((h.sized hpos).bucket_lt key offset)
      simp [findEmptyBucket, hfilled, ih]

/-- **`find_or_allocate`** ends at the key or at a bucket to put it in, unless the key is new
and the table full. -/
theorem Stores.findOrAllocate_spec (h : t.Stores keys) {turns : ℕ}
    (hturns : t.numBuckets ≤ turns) (key : UInt64) :
    (key ∈ keys ∧ ∃ b, t.cell b = .key key ∧ t.findOrAllocate turns key = some (t, b)) ∨
      (key ∉ keys ∧ keys.card < t.numBuckets ∧ ∃ d probeLength, t.Vacant key d probeLength ∧
        t.findOrAllocate turns key =
          some ({ t with maxProbeLength := probeLength }, t.bucket key d)) ∨
      (key ∉ keys ∧ t.numBuckets ≤ keys.card ∧ t.findOrAllocate turns key = none) := by
  rcases Nat.eq_zero_or_pos t.numBuckets with hzero | hpos
  · -- no arrays yet
    have hprobe : (t.maxProbeLength + 1).toNat = 0 := by
      have := h.probe_lt
      omega
    have hle := h.card_le
    have hnot : key ∉ keys := fun hmem => absurd (h.numBuckets_pos hmem) (by omega)
    refine Or.inr (Or.inr ⟨hnot, by omega, ?_⟩)
    simp [findOrAllocate, hprobe, search, h.allocate_of_full (by omega)]
  have hbefore : t.HoleBefore key 0 none :=
    ⟨fun b hb => absurd hb (by simp), fun _ e he => absurd he (Nat.not_lt_zero e)⟩
  have hneg := h.neg_one_le
  have hlt := h.probe_lt
  rcases h.search_spec hpos (t.maxProbeLength + 1).toNat skipped_zero hbefore with
    ⟨d, hd, hpassed, hcell | hcell, hsearch⟩ | ⟨hpassed, hole, hhole, hsearch⟩
  · exact Or.inl ⟨(h.keeps.mem_iff key).2 ⟨_, hcell⟩, _, hcell,
      by simp [findOrAllocate, hsearch]⟩
  · -- a bucket within the probe length was never touched
    have hroom : keys.card < t.numBuckets := by
      by_contra hfull
      obtain ⟨k, hk⟩ := h.key_of_full (not_lt.1 hfull) ((h.sized hpos).bucket_lt key d)
      rw [hcell] at hk
      cases hk
    refine Or.inr (Or.inl ⟨hpassed.not_mem_of_untouched h.keeps hcell, hroom, d,
      t.maxProbeLength, ⟨?_, fun e he => (hpassed e he).1, by omega, le_rfl, hlt⟩, ?_⟩)
    · simp [hcell]
    · simp [findOrAllocate, hsearch]
  rw [Nat.zero_add] at hpassed hhole
  have hnot := hpassed.not_mem_of_bound h.keeps
  cases hole with
  | some b =>
    obtain ⟨d, hd, rfl, hcell⟩ := hhole.erased b rfl
    have hroom : keys.card < t.numBuckets := by
      by_contra hfull
      obtain ⟨k, hk⟩ := h.key_of_full (not_lt.1 hfull) ((h.sized hpos).bucket_lt key d)
      rw [hcell] at hk
      cases hk
    refine Or.inr (Or.inl ⟨hnot, hroom, d, t.maxProbeLength,
      ⟨?_, fun e he => (hpassed e (by omega)).1, by omega, le_rfl, hlt⟩, ?_⟩)
    · simp [hcell]
    · simp [findOrAllocate, hsearch]
  | none =>
    rcases Nat.lt_or_ge keys.card t.numBuckets with hroom | hfull
    · obtain ⟨d, hd, hopen⟩ := h.exists_open hroom key
      have hle : (t.maxProbeLength + 1).toNat ≤ d := by
        by_contra hnear
        rcases h.cell_cases ((h.sized hpos).bucket_lt key d) with ⟨-, hc⟩ | ⟨-, hc⟩ | ⟨k, -, -, hc⟩
        · exact (hpassed d (by omega)).1 hc
        · exact hhole.none_iff rfl d (by omega) hc
        · exact hopen k hc
      obtain ⟨c, hvacant, hallocate⟩ :=
        h.allocate_spec hd hopen turns hle (by omega) (fun e he => (hpassed e he).1) (by omega)
      refine Or.inr (Or.inl ⟨hnot, hroom, c, c, hvacant, ?_⟩)
      simp [findOrAllocate, hsearch, hallocate]
    · refine Or.inr (Or.inr ⟨hnot, hfull, ?_⟩)
      simp [findOrAllocate, hsearch, h.allocate_of_full hfull]

/-- **`find_empty_bucket`** ends at the first open bucket. -/
theorem Stores.findEmptyBucket_spec (h : t.Stores keys) (hroom : keys.card < t.numBuckets)
    {turns : ℕ} (hturns : t.numBuckets ≤ turns) (key : UInt64) : ∃ d probeLength,
      t.Vacant key d probeLength ∧ t.findEmptyBucket key turns 0 =
        some ({ t with maxProbeLength := probeLength }, t.bucket key d) := by
  obtain ⟨d, hd, hopen⟩ := h.exists_open hroom key
  have hlt := h.probe_lt
  suffices hfind : ∀ turns offset, offset ≤ d → d < offset + turns →
      (∀ e < offset, t.cell (t.bucket key e) ≠ .untouched) → ∃ d probeLength,
        t.Vacant key d probeLength ∧ t.findEmptyBucket key turns offset =
          some ({ t with maxProbeLength := probeLength }, t.bucket key d) by
    exact hfind turns 0 (Nat.zero_le d) (by omega) fun e he => absurd he (Nat.not_lt_zero e)
  intro turns
  induction turns with
  | zero =>
    intro offset
    omega
  | succ turns ih =>
    intro offset hle hturn hpath
    have hbucket := (h.sized (by omega)).bucket_lt key offset
    by_cases hfilled : t.states[t.bucket key offset]? = some .filled
    · have hnext : t.findEmptyBucket key (turns + 1) offset =
          t.findEmptyBucket key turns (offset + 1) := by
        simp [findEmptyBucket, hfilled]
      rcases h.cell_cases hbucket with ⟨hstate, -⟩ | ⟨hstate, -⟩ | ⟨k, -, -, hcell⟩
      · rw [hfilled] at hstate
        cases hstate
      · rw [hfilled] at hstate
        cases hstate
      have hne : offset ≠ d := by
        rintro rfl
        exact hopen k hcell
      rw [hnext]
      refine ih _ (by omega) (by omega) fun e he => ?_
      rcases Nat.lt_succ_iff_lt_or_eq.1 he with he | rfl
      · exact hpath e he
      · simp [hcell]
    · obtain ⟨state, hstate⟩ : ∃ state, t.states[t.bucket key offset]? = some state :=
        ⟨_, List.getElem?_eq_getElem (by rw [h.length_states]; exact hbucket)⟩
      have hne : state ≠ .filled := by
        rintro rfl
        exact hfilled hstate
      refine ⟨offset, max t.maxProbeLength offset, ⟨fun k hk => hfilled (of_cell_eq_key hk).1,
        hpath, le_max_right _ _, le_max_left _ _, by omega⟩, ?_⟩
      simp [findEmptyBucket, hstate, hne]

/-! ## Insertion -/

theorem Formed.cell_fill (h : t.Formed) (hb : b < t.numBuckets) (key : UInt64)
    (probeLength : ℤ) : (HashSet.fill { t with maxProbeLength := probeLength } b key).cell =
      Function.update t.cell b (.key key) := by
  have hs : b < t.states.length := by rwa [h.length_states]
  have hk : b < t.keys.length := by rwa [h.length_keys]
  funext c
  by_cases hc : c = b
  · rw [hc, Function.update_self]
    simp [cell, HashSet.fill, hs, hk]
  · rw [Function.update_of_ne hc]
    simp [cell, HashSet.fill, List.getElem?_set_ne (Ne.symm hc)]

/-- A vacant bucket is filled with a new key. -/
theorem Stores.fill (h : t.Stores keys) (hnot : key ∉ keys) {d : ℕ} {probeLength : ℤ}
    (hvacant : t.Vacant key d probeLength) :
    (HashSet.fill { t with maxProbeLength := probeLength } (t.bucket key d) key).Stores
      (Insert.insert key keys) := by
  have hneg := h.neg_one_le
  have hlt := hvacant.lt
  have hle := hvacant.le
  have hbucket := (h.sized (by omega)).bucket_lt key d
  exact {
    pow := h.pow
    length_states := by
      show (t.states.set _ _).length = t.numBuckets
      rw [List.length_set, h.length_states]
    length_keys := by
      show (t.keys.set _ _).length = t.numBuckets
      rw [List.length_set, h.length_keys]
    keeps := by
      rw [h.cell_fill hbucket]
      refine h.keeps.insert hnot hvacant.isOpen hvacant.path ?_ ?_
      · show d < (probeLength + 1).toNat
        omega
      · show (t.maxProbeLength + 1).toNat ≤ (probeLength + 1).toNat
        have := hvacant.old_le
        omega
    numFilled := by
      show t.numFilled + 1 = _
      rw [h.numFilled, Finset.card_insert_of_notMem hnot]
    neg_one_le := h.neg_one_le.trans hvacant.old_le
    probe_lt := hlt }

/-- **Insertion** puts the key into the table, or finds it there. -/
theorem Stores.insert_spec (h : t.Stores keys) {turns : ℕ} (hturns : t.numBuckets ≤ turns)
    (hroom : key ∈ keys ∨ keys.card < t.numBuckets) :
    ∃ t' b, t.insert turns key = some (t', b, decide (key ∉ keys)) ∧
      t.checkInsert turns key = some (t', decide (key ∉ keys)) ∧
      t'.Stores (Insert.insert key keys) ∧ t'.numBuckets = t.numBuckets ∧
      t'.keys[b]? = some key := by
  rcases h.findOrAllocate_spec hturns key with
    ⟨hmem, b, hcell, hfind⟩ | ⟨hnot, -, d, probeLength, hvacant, hfind⟩ | ⟨hnot, hfull, -⟩
  · obtain ⟨hstate, hkey⟩ := of_cell_eq_key hcell
    refine ⟨t, b, ?_, ?_, by rwa [Finset.insert_eq_of_mem hmem], rfl, hkey⟩
    · simp [insert, hfind, hstate, hmem]
    · simp [checkInsert, hfind, hstate, hmem]
  · have hlt : t.bucket key d < t.numBuckets := by
      have := hvacant.lt
      have := hvacant.le
      exact (h.sized (by omega)).bucket_lt key d
    obtain ⟨state, hstate⟩ : ∃ state, t.states[t.bucket key d]? = some state :=
      ⟨_, List.getElem?_eq_getElem (by rwa [h.length_states])⟩
    have hne : state ≠ .filled := by
      rintro rfl
      rcases h.cell_cases hlt with ⟨hs, -⟩ | ⟨hs, -⟩ | ⟨k, -, -, hc⟩
      · rw [hstate] at hs
        cases hs
      · rw [hstate] at hs
        cases hs
      · exact hvacant.isOpen k hc
    refine ⟨_, t.bucket key d, ?_, ?_, h.fill hnot hvacant, rfl, ?_⟩
    · simp [insert, hfind, hstate, hne, hnot]
    · simp [checkInsert, hfind, hstate, hne, hnot]
    · simp [HashSet.fill, h.length_keys, hlt]
  · rcases hroom with hmem | hlt
    · exact absurd hmem hnot
    · omega

/-- **A new key in a full table**: the insertion never returns. -/
theorem Stores.insert_of_full (h : t.Stores keys) {turns : ℕ} (hturns : t.numBuckets ≤ turns)
    (hnot : key ∉ keys) (hfull : t.numBuckets ≤ keys.card) :
    t.insert turns key = none ∧ t.checkInsert turns key = none := by
  rcases h.findOrAllocate_spec hturns key with ⟨hmem, -⟩ | ⟨-, hlt, -⟩ | ⟨-, -, hfind⟩
  · exact absurd hmem hnot
  · omega
  · simp [insert, checkInsert, hfind]

/-- **A key known to be new.** -/
theorem Stores.insertUnique_spec (h : t.Stores keys) {turns : ℕ} (hturns : t.numBuckets ≤ turns)
    (hnot : key ∉ keys) (hroom : keys.card < t.numBuckets) :
    ∃ t', t.insertUnique turns key = some t' ∧ t'.Stores (Insert.insert key keys) ∧
      t'.numBuckets = t.numBuckets := by
  obtain ⟨d, probeLength, hvacant, hfind⟩ := h.findEmptyBucket_spec hroom hturns key
  exact ⟨_, by simp [insertUnique, hfind], h.fill hnot hvacant, rfl⟩

theorem Stores.insertUnique_of_full (h : t.Stores keys) (turns : ℕ)
    (hfull : t.numBuckets ≤ keys.card) : t.insertUnique turns key = none := by
  simp [insertUnique, h.findEmptyBucket_of_full hfull]

/-! ## Erasure -/

theorem Formed.cell_vacate (h : t.Formed) (hb : b < t.numBuckets) :
    (t.vacate b).cell = Function.update t.cell b .erased := by
  have hs : b < t.states.length := by rwa [h.length_states]
  funext c
  by_cases hc : c = b
  · rw [hc, Function.update_self]
    simp [cell, vacate, hs]
  · rw [Function.update_of_ne hc]
    simp [cell, vacate, List.getElem?_set_ne (Ne.symm hc)]

/-- The key in a bucket is erased. -/
theorem Stores.vacate (h : t.Stores keys) (hcell : t.cell b = .key key) :
    (t.vacate b).Stores (keys.erase key) where
  pow := h.pow
  length_states := by
    show (t.states.set _ _).length = t.numBuckets
    rw [List.length_set, h.length_states]
  length_keys := h.length_keys
  keeps := by
    rw [h.cell_vacate (h.lt_of_cell_eq_key hcell)]
    exact h.keeps.erase hcell
  numFilled := by
    show t.numFilled - 1 = _
    rw [h.numFilled, Finset.card_erase_of_mem ((h.keeps.mem_iff key).2 ⟨b, hcell⟩)]
  neg_one_le := h.neg_one_le
  probe_lt := h.probe_lt

/-- **Erasure by key.** -/
theorem Stores.vacated_spec (h : t.Stores keys) (key : UInt64) :
    ∃ t', t.erase key = some (t', decide (key ∈ keys)) ∧ t'.Stores (keys.erase key) ∧
      t'.numBuckets = t.numBuckets := by
  rcases h.findFilledBucket_spec key with ⟨hmem, b, hcell, hfind⟩ | ⟨hnot, hfind⟩
  · exact ⟨t.vacate b, by simp [erase, hfind, hmem], h.vacate hcell, rfl⟩
  · refine ⟨t, by simp [erase, hfind, hnot], ?_, rfl⟩
    rwa [Finset.erase_eq_of_notMem hnot]

/-! ## Clearing -/

/-- **Clearing** leaves no key; erased buckets stay marked. -/
theorem Stores.clear (h : t.Stores keys) : t.clear.Stores ∅ where
  pow := h.pow
  length_states := by
    show (t.states.map _).length = t.numBuckets
    rw [List.length_map, h.length_states]
  length_keys := h.length_keys
  keeps := by
    refine keeps_empty fun b key hcell => ?_
    have hstate : (t.states.map fun state => if state = .filled then .inactive else state)[b]? =
        some .filled := (of_cell_eq_key hcell).1
    rw [List.getElem?_map, Option.map_eq_some_iff] at hstate
    obtain ⟨state, -, hstate⟩ := hstate
    split at hstate
    · cases hstate
    · rename_i hne
      exact hne hstate
  numFilled := rfl
  neg_one_le := le_rfl
  probe_lt := by
    show (-1 : ℤ) < t.numBuckets
    omega

/-- The table of the constructor. -/
theorem stores_default : default.Stores ∅ where
  pow := fun hpos => absurd hpos (Nat.lt_irrefl 0)
  length_states := rfl
  length_keys := rfl
  keeps := keeps_empty fun b key hcell => by simp [cell, default] at hcell
  numFilled := rfl
  neg_one_le := le_rfl
  probe_lt := by decide

/-! ## The keys in the order of the buckets -/

/-- The keys of the filled buckets, in order. -/
def filledKeys (buckets : List (State × UInt64)) : List UInt64 :=
  (buckets.filter fun bucket => bucket.1 = .filled).map Prod.snd

/-- The keys from a bucket on. -/
def keysFrom (t : HashSet) (b : ℕ) : List UInt64 := filledKeys ((t.states.zip t.keys).drop b)

theorem filledKeys_cons (state : State) (key : UInt64) (buckets : List (State × UInt64)) :
    filledKeys ((state, key) :: buckets) =
      if state = .filled then key :: filledKeys buckets else filledKeys buckets := by
  by_cases hstate : state = .filled
  · rw [if_pos hstate, filledKeys, List.filter_cons_of_pos (by simp [hstate])]
    rfl
  · rw [if_neg hstate, filledKeys, List.filter_cons_of_neg (by simp [hstate])]
    rfl

theorem getElem?_zip_eq_some {state : State} : (t.states.zip t.keys)[b]? = some (state, key) ↔
    t.states[b]? = some state ∧ t.keys[b]? = some key := List.getElem?_zip_eq_some

theorem cell_eq_key_iff :
    t.cell b = .key key ↔ (t.states.zip t.keys)[b]? = some (.filled, key) := by
  rw [getElem?_zip_eq_some]
  refine ⟨of_cell_eq_key, fun ⟨hstate, hkey⟩ => ?_⟩
  rw [cell, hstate, hkey]

theorem mem_keysFrom_zero : key ∈ t.keysFrom 0 ↔ ∃ b, t.cell b = .key key := by
  have hmem : key ∈ t.keysFrom 0 ↔ (State.filled, key) ∈ t.states.zip t.keys := by
    simp [keysFrom, filledKeys]
  rw [hmem, List.mem_iff_getElem?]
  exact exists_congr fun b => cell_eq_key_iff.symm

/-- The keys in the order of the buckets. -/
theorem Stores.keysFrom_zero (h : t.Stores keys) :
    (t.keysFrom 0).Nodup ∧ (t.keysFrom 0).toFinset = keys := by
  constructor
  · rw [keysFrom, filledKeys, List.drop_zero, List.Nodup, List.pairwise_map,
      List.pairwise_filter, List.pairwise_iff_getElem]
    intro i j hi hj hij hfi hfj heq
    have hcell : ∀ c, ∀ hc : c < (t.states.zip t.keys).length,
        decide ((t.states.zip t.keys)[c].1 = .filled) = true →
          t.cell c = .key (t.states.zip t.keys)[c].2 := by
      intro c hc hfilled
      rw [cell_eq_key_iff, List.getElem?_eq_getElem hc, ← of_decide_eq_true hfilled]
    have hj' := hcell j hj hfj
    rw [← heq] at hj'
    exact absurd (h.keeps.once i j _ (hcell i hi hfi) hj') (Nat.ne_of_lt hij)
  · ext key
    rw [List.mem_toFinset, mem_keysFrom_zero, h.keeps.mem_iff]

theorem Stores.length_keysFrom_zero (h : t.Stores keys) :
    (t.keysFrom 0).length = keys.card := by
  obtain ⟨hnodup, rfl⟩ := h.keysFrom_zero
  exact (List.toFinset_card_of_nodup hnodup).symm

theorem Formed.keysFrom_eq (h : t.Formed) (hb : b < t.numBuckets) :
    t.keysFrom b = if t.states[b]? = some .filled then
      (t.keys[b]?).toList ++ t.keysFrom (b + 1) else t.keysFrom (b + 1) := by
  have hs : b < t.states.length := by rwa [h.length_states]
  have hk : b < t.keys.length := by rwa [h.length_keys]
  have hz : b < (t.states.zip t.keys).length := by
    rw [List.length_zip]
    exact lt_min hs hk
  rw [keysFrom, List.drop_eq_getElem_cons hz, List.getElem_zip, filledKeys_cons,
    List.getElem?_eq_getElem hs, List.getElem?_eq_getElem hk]
  simp only [Option.some.injEq]
  rfl

theorem Formed.keysFrom_end (h : t.Formed) : t.keysFrom t.numBuckets = [] := by
  rw [keysFrom, List.drop_of_length_le]
  · rfl
  · rw [List.length_zip, h.length_states, h.length_keys, min_self]

/-- **An iterator moves** to the next key, or to the end if there is none. -/
theorem Formed.skip_spec (h : t.Formed) (hb : b ≤ t.numBuckets) :
    (t.skip b = t.numBuckets ∧ t.keysFrom b = []) ∨
      ∃ key, t.cell (t.skip b) = .key key ∧ b ≤ t.skip b ∧ t.skip b < t.numBuckets ∧
        t.keysFrom b = key :: t.keysFrom (t.skip b + 1) := by
  fun_induction skip t b with
  | case1 b hcond ih =>
    rw [h.keysFrom_eq hcond.1, if_neg hcond.2]
    rcases ih hcond.1 with hend | ⟨key, hcell, hle, hrest⟩
    · exact Or.inl hend
    · exact Or.inr ⟨key, hcell, by omega, hrest⟩
  | case2 b hcond =>
    rcases hb.lt_or_eq with hlt | rfl
    · have hfilled : t.states[b]? = some .filled := by
        by_contra hne
        exact hcond ⟨hlt, hne⟩
      rcases h.cell_cases hlt with ⟨hs, -⟩ | ⟨hs, -⟩ | ⟨key, -, hkey, hcell⟩
      · rw [hfilled] at hs
        cases hs
      · rw [hfilled] at hs
        cases hs
      · refine Or.inr ⟨key, hcell, le_rfl, hlt, ?_⟩
        rw [h.keysFrom_eq hlt, if_pos hfilled, hkey]
        rfl
    · exact Or.inl ⟨rfl, h.keysFrom_end⟩

/-- **Iteration** comes to each key once. -/
theorem Formed.walk_eq (h : t.Formed) {turns : ℕ} (hb : b ≤ t.numBuckets)
    (hturns : t.numBuckets - b < turns) : t.walk turns (t.skip b) = some (t.keysFrom b) := by
  induction turns generalizing b with
  | zero => omega
  | succ turns ih =>
    rcases h.skip_spec hb with ⟨hend, hnil⟩ | ⟨key, hcell, hle, hlt, hcons⟩
    · rw [walk, if_pos hend, hnil]
    · have hkey := (of_cell_eq_key hcell).2
      have hrest := ih (show t.skip b + 1 ≤ t.numBuckets by omega) (by omega)
      rw [walk, if_neg hlt.ne, hcons]
      simp [hkey, gotoNextElement, hrest]

/-- What lies before a bucket does not matter to an iterator that has passed it. -/
theorem skip_vacate {c : ℕ} (hlt : b < c) : (t.vacate b).skip c = t.skip c := by
  have hstate : ∀ d, b < d → (t.vacate b).states[d]? = t.states[d]? := fun d hd => by
    rw [vacate, List.getElem?_set_ne hd.ne]
  fun_induction skip t c with
  | case1 c hcond ih =>
    have hnext := ih (by omega)
    rw [skip, if_pos, hnext]
    rw [hstate c hlt]
    exact hcond
  | case2 c hcond =>
    rw [skip, if_neg]
    rw [hstate c hlt]
    exact hcond

theorem keysFrom_vacate {c : ℕ} (hlt : b < c) : (t.vacate b).keysFrom c = t.keysFrom c := by
  have hdrop : (t.states.set b .active).drop c = t.states.drop c := by
    rw [List.drop_set, if_pos hlt]
  simp only [keysFrom, List.zip, List.drop_zipWith, vacate, hdrop]

/-- **Erasure by iterator** returns the iterator to the next key. -/
theorem Stores.eraseAt_spec (h : t.Stores keys) (hcell : t.cell b = .key key) :
    t.eraseAt b = some (t.vacate b, t.gotoNextElement b) := by
  have hlt : b < t.states.length := by
    rw [h.length_states]
    exact h.lt_of_cell_eq_key hcell
  rw [eraseAt, if_pos hlt, gotoNextElement, gotoNextElement, skip_vacate (Nat.lt_succ_self b)]

/-! ## Reserving -/

/-- The buckets of a table after space was reserved. -/
def roomFor (numBuckets numElems : ℕ) : ℕ :=
  if numElems + numElems / 2 + 1 ≤ numBuckets then numBuckets
  else 2 ^ max 2 (Nat.clog 2 (numElems + numElems / 2 + 1))

/-- Doubling goes up to the first power of two that is large enough. -/
theorem double_eq {requiredBuckets turns m : ℕ} (hturns : Nat.clog 2 requiredBuckets ≤ m + turns) :
    double requiredBuckets turns (2 ^ m) = 2 ^ max m (Nat.clog 2 requiredBuckets) := by
  induction turns generalizing m with
  | zero => rw [double, max_eq_left (by omega)]
  | succ turns ih =>
    rw [double]
    by_cases hlt : 2 ^ m < requiredBuckets
    · have hm : m < Nat.clog 2 requiredBuckets := (Nat.lt_clog_iff_pow_lt (by decide)).2 hlt
      rw [if_pos hlt, ← pow_succ, ih (by omega), max_eq_right hm, max_eq_right hm.le]
    · have hm : Nat.clog 2 requiredBuckets ≤ m := (Nat.clog_le_iff_le_pow (by decide)).2 (by omega)
      rw [if_neg hlt, max_eq_left hm]

theorem stores_fresh {m : ℕ} (hm : m < 64) : (fresh (2 ^ m)).Stores ∅ where
  pow := fun _ => ⟨m, hm, rfl, rfl⟩
  length_states := List.length_replicate
  length_keys := List.length_replicate
  keeps := by
    refine keeps_empty fun b key hcell => ?_
    have hstate := List.mem_of_getElem? (of_cell_eq_key hcell).1
    exact State.noConfusion (List.eq_of_mem_replicate hstate)
  numFilled := rfl
  neg_one_le := le_rfl
  probe_lt := by
    show (-1 : ℤ) < ((2 ^ m : ℕ) : ℤ)
    exact lt_of_lt_of_le (by decide) (Int.natCast_nonneg _)

/-- The old buckets move to a table with room for them. -/
theorem Stores.foldlM_rehash (h : t.Stores keys) {turns : ℕ} (hturns : t.numBuckets ≤ turns)
    {buckets : List (State × UInt64)} (hnodup : (filledKeys buckets).Nodup)
    (hnew : ∀ key ∈ filledKeys buckets, key ∉ keys)
    (hroom : keys.card + (filledKeys buckets).length ≤ t.numBuckets) :
    ∃ t', buckets.foldlM (rehash turns) t = some t' ∧
      t'.Stores (keys ∪ (filledKeys buckets).toFinset) ∧ t'.numBuckets = t.numBuckets := by
  induction buckets generalizing t keys with
  | nil => exact ⟨t, rfl, by simpa [filledKeys] using h, rfl⟩
  | cons bucket buckets ih =>
    obtain ⟨state, key⟩ := bucket
    rw [filledKeys_cons] at hnodup hnew hroom ⊢
    rw [List.foldlM_cons]
    by_cases hstate : state = .filled
    · rw [if_pos hstate] at hnodup hnew hroom ⊢
      rw [List.length_cons] at hroom
      have hnot : key ∉ keys := hnew key List.mem_cons_self
      obtain ⟨d, probeLength, hvacant, hfind⟩ :=
        h.findEmptyBucket_spec (by omega) hturns key
      have hcard := Finset.card_insert_of_notMem hnot
      obtain ⟨t', hfold, hstores, hsame⟩ := ih (h.fill hnot hvacant) hturns
        (List.nodup_cons.1 hnodup).2
        (fun k hk => by
          rw [Finset.mem_insert, not_or]
          refine ⟨?_, hnew k (List.mem_cons_of_mem _ hk)⟩
          rintro rfl
          exact (List.nodup_cons.1 hnodup).1 hk)
        (by
          show _ ≤ t.numBuckets
          omega)
      refine ⟨t', ?_, ?_, hsame⟩
      · simp [rehash, hstate, hfind, hfold]
      · rwa [List.toFinset_cons, Finset.union_insert, ← Finset.insert_union]
    · rw [if_neg hstate] at hnodup hnew hroom ⊢
      obtain ⟨t', hfold, hrest⟩ := ih h hturns hnodup hnew hroom
      exact ⟨t', by simpa [rehash, hstate] using hfold, hrest⟩

/-- **Reserving** keeps the keys. -/
theorem Stores.reserve_spec (h : t.Stores keys) {turns numElems : ℕ} (hturns : 2 ^ 30 ≤ turns)
    (hnum : numElems ≤ 2 ^ 29) : ∃ t', t.reserve turns numElems = some t' ∧ t'.Stores keys ∧
      t'.numBuckets = roomFor t.numBuckets numElems := by
  have hrequired : numElems + numElems / 2 + 1 ≤ 2 ^ 30 := by omega
  unfold reserve roomFor
  generalize numElems + numElems / 2 + 1 = required at hrequired
  dsimp only
  by_cases hle : required ≤ t.numBuckets
  · rw [if_pos hle, if_pos hle]
    exact ⟨t, rfl, h, rfl⟩
  · have hclog : Nat.clog 2 required ≤ 30 := (Nat.clog_le_iff_le_pow (by decide)).2 hrequired
    have hself : Nat.clog 2 required ≤ required :=
      (Nat.clog_le_iff_le_pow (by decide)).2 required.lt_two_pow_self.le
    have hpow : required ≤ 2 ^ max 2 (Nat.clog 2 required) :=
      (Nat.clog_le_iff_le_pow (by decide)).1 (le_max_right _ _)
    have hturns' : 2 ^ max 2 (Nat.clog 2 required) ≤ turns :=
      (Nat.pow_le_pow_right (by decide) (max_le (by decide) hclog)).trans hturns
    have hcard := h.card_le
    obtain ⟨hnodup, hkeys⟩ := h.keysFrom_zero
    have hlen := h.length_keysFrom_zero
    rw [keysFrom, List.drop_zero] at hnodup hkeys hlen
    have hfresh := stores_fresh (m := max 2 (Nat.clog 2 required)) (by omega)
    obtain ⟨t', hfold, hstores, hsame⟩ := hfresh.foldlM_rehash hturns' hnodup
      (fun key _ => Finset.notMem_empty key)
      (by
        rw [hlen, Finset.card_empty]
        show 0 + keys.card ≤ 2 ^ max 2 (Nat.clog 2 required)
        omega)
    rw [if_neg hle, if_neg hle, show 4 = 2 ^ 2 from rfl, double_eq (by omega)]
    refine ⟨t', hfold, ?_, hsame⟩
    rwa [hkeys, Finset.empty_union] at hstores

end HashSet

end Rtl
end Sword
