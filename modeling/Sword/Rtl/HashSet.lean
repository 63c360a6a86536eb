import Sword.Lib.Probing

/-!
# The table of the filter: `rtl/sword_hashset.h`

`HashSet` is an open-addressing table with linear probing and a number of buckets that is a
power of two.  The runtime reserves it once, inserts keys and clears it; the check that would
let it grow is commented out, so the second loop of `find_or_allocate` has no bound of its
own.  Loops without a bound take a number of turns here, and `none` says that it was not
enough, or that an array was read out of bounds.

* `findOrAllocate`, `checkInsert`, `clear`, `reserve` — the operations the runtime uses.
* `cells` — the keys of the filled buckets.
* `Holds` — the invariant, for the keys inserted since the table was cleared.
* `Holds.checkInsert_spec`, `Holds.clear`, `reserve_spec` — what the operations do.
-/

namespace Sword
namespace Rtl

open Probing

/-! ## The table -/

/-- `HashSet::State`. -/
inductive State
  /-- Never been touched. -/
  | inactive
  /-- Inside a search chain, but empty. -/
  | active
  /-- Set with a key. -/
  | filled
  deriving DecidableEq, Repr

/-- `HashSet<uint64_t, N>`. -/
structure HashSet where
  /-- `_states` -/
  states : List State
  /-- `_keys` -/
  keys : List UInt64
  /-- `_num_buckets` -/
  numBuckets : ℕ
  /-- `_num_filled` -/
  numFilled : ℕ
  /-- `_max_probe_length` -/
  maxProbeLength : ℤ
  /-- `_mask` -/
  mask : UInt64
  deriving DecidableEq, Repr

namespace HashSet

/-- `HashSet()`. -/
def default : HashSet := ⟨[], [], 0, 0, -1, 0⟩

/-- `(key + offset) & _mask`. -/
def bucket (t : HashSet) (key : UInt64) (offset : ℕ) : ℕ :=
  ((key + UInt64.ofNat offset) &&& t.mask).toNat

/-- The first loop of `find_or_allocate`, for this many offsets: the bucket it returns, or
the hole it has seen. -/
def search (t : HashSet) (key : UInt64) : ℕ → ℕ → Option ℕ → Option (ℕ ⊕ Option ℕ)
  | 0, _, hole => some (.inr hole)
  | turns + 1, offset, hole => do
    let bucket := t.bucket key offset
    match ← t.states[bucket]? with
    | .filled =>
      if (← t.keys[bucket]?) = key then some (.inl bucket)
      else t.search key turns (offset + 1) hole
    | .inactive => some (.inl bucket)
    -- keep searching
    | .active => t.search key turns (offset + 1) (hole.or (some bucket))

/-- The second loop of `find_or_allocate`: no hole was found within the probe length. -/
def allocate (t : HashSet) (key : UInt64) : ℕ → ℕ → Option (HashSet × ℕ)
  | 0, _ => none
  | turns + 1, offset => do
    let bucket := t.bucket key offset
    if (← t.states[bucket]?) ≠ .filled then some ({ t with maxProbeLength := offset }, bucket)
    else t.allocate key turns (offset + 1)

/-- `find_or_allocate`: the bucket of the key, or one to place the key in. -/
def findOrAllocate (turns : ℕ) (t : HashSet) (key : UInt64) : Option (HashSet × ℕ) := do
  let offsets := (t.maxProbeLength + 1).toNat
  match ← t.search key offsets 0 none with
  | .inl bucket => some (t, bucket)
  | .inr (some hole) => some (t, hole)
  | .inr none => t.allocate key turns offsets

/-- The bucket is filled with the key. -/
def fill (t : HashSet) (bucket : ℕ) (key : UInt64) : HashSet :=
  { t with
    states := t.states.set bucket .filled
    keys := t.keys.set bucket key
    numFilled := t.numFilled + 1 }

/-- `check_insert`: whether the insertion took place. -/
def checkInsert (turns : ℕ) (t : HashSet) (key : UInt64) : Option (HashSet × Bool) := do
  let (t, bucket) ← t.findOrAllocate turns key
  if (← t.states[bucket]?) = .filled then some (t, false) else some (t.fill bucket key, true)

/-- `clear`. -/
def clear (t : HashSet) : HashSet :=
  { t with
    states := t.states.map fun state => if state = .filled then .inactive else state
    numFilled := 0
    maxProbeLength := -1 }

/-- `find_empty_bucket`, from this offset on. -/
def findEmptyBucket (t : HashSet) (key : UInt64) : ℕ → ℕ → Option (HashSet × ℕ)
  | 0, _ => none
  | turns + 1, offset => do
    let bucket := t.bucket key offset
    if (← t.states[bucket]?) ≠ .filled then
      some ({ t with maxProbeLength := max t.maxProbeLength offset }, bucket)
    else t.findEmptyBucket key turns (offset + 1)

/-- `while (num_buckets < required_buckets) { num_buckets *= 2; }`, for at most this many
turns. -/
def double (requiredBuckets : ℕ) : ℕ → ℕ → ℕ
  | 0, numBuckets => numBuckets
  | turns + 1, numBuckets =>
    if numBuckets < requiredBuckets then double requiredBuckets turns (numBuckets * 2)
    else numBuckets

/-- A table whose buckets have never been touched. -/
def fresh (numBuckets : ℕ) : HashSet :=
  ⟨.replicate numBuckets .inactive, .replicate numBuckets 0, numBuckets, 0, -1,
    UInt64.ofNat (numBuckets - 1)⟩

/-- An old bucket moves to the new table. -/
def rehash (turns : ℕ) (t : HashSet) (old : State × UInt64) : Option HashSet :=
  if old.1 = .filled then do
    let (t, bucket) ← t.findEmptyBucket old.2 turns 0
    some (t.fill bucket old.2)
  else some t

/-- `reserve`.  Doubling, the number of buckets gets to the required one in fewer turns than
that number. -/
def reserve (turns : ℕ) (t : HashSet) (numElems : ℕ) : Option HashSet :=
  let requiredBuckets := numElems + numElems / 2 + 1
  if requiredBuckets ≤ t.numBuckets then some t
  else
    let numBuckets := double requiredBuckets requiredBuckets 4
    (t.states.zip t.keys).foldlM (rehash turns) (fresh numBuckets)

/-! ## The invariant -/

/-- The keys of the filled buckets. -/
def cells (t : HashSet) (b : ℕ) : Option UInt64 :=
  if t.states[b]? = some .filled then t.keys[b]? else none

/-- The arrays have a power of two of buckets, and the mask goes with it. -/
structure Sized (t : HashSet) : Prop where
  pow : ∃ m < 64, t.numBuckets = 2 ^ m ∧ t.mask = UInt64.ofNat (2 ^ m - 1)
  length_states : t.states.length = t.numBuckets
  length_keys : t.keys.length = t.numBuckets

/-- The table holds these keys. -/
structure Holds (t : HashSet) (keys : Finset UInt64) : Prop extends t.Sized where
  /-- Nothing has ever been erased. -/
  not_active : State.active ∉ t.states
  /-- Every key is within the probe length of its home, behind filled buckets. -/
  probed : Probed t.bucket t.cells (t.maxProbeLength + 1).toNat
  neg_one_le : -1 ≤ t.maxProbeLength
  stored : ∀ key, Stored t.cells key ↔ key ∈ keys
  count_filled : t.states.count .filled = keys.card
  numFilled : t.numFilled = keys.card

variable {t : HashSet} {keys : Finset UInt64} {key : UInt64}

/-- The mask takes the sum modulo the number of buckets. -/
theorem Sized.bucket_eq (h : t.Sized) (key : UInt64) (offset : ℕ) :
    t.bucket key offset = (key.toNat + offset) % t.numBuckets := by
  obtain ⟨m, hm, hbuckets, hmask⟩ := h.pow
  have hlt : 2 ^ m - 1 < 2 ^ 64 :=
    lt_of_le_of_lt (Nat.sub_le _ _) (Nat.pow_lt_pow_right (by decide) hm)
  have hdvd : 2 ^ m ∣ 2 ^ 64 := Nat.pow_dvd_pow 2 hm.le
  rw [bucket, hmask, hbuckets, UInt64.toNat_and, UInt64.toNat_ofNat_of_lt' hlt,
    Nat.and_two_pow_sub_one_eq_mod, UInt64.toNat_add, UInt64.toNat_ofNat',
    Nat.mod_mod_of_dvd _ hdvd, Nat.add_mod, Nat.mod_mod_of_dvd _ hdvd, ← Nat.add_mod]

theorem Sized.numBuckets_pos (h : t.Sized) : 0 < t.numBuckets := by
  obtain ⟨m, -, hbuckets, -⟩ := h.pow
  rw [hbuckets]
  exact Nat.two_pow_pos m

theorem Sized.bucket_lt (h : t.Sized) (key : UInt64) (offset : ℕ) :
    t.bucket key offset < t.numBuckets := by
  rw [h.bucket_eq]
  exact Nat.mod_lt _ h.numBuckets_pos

/-- A bucket is untouched, or filled with a key. -/
theorem Holds.bucket_cases (h : t.Holds keys) {b : ℕ} (hb : b < t.numBuckets) :
    t.states[b]? = some .inactive ∧ t.cells b = none ∨
      ∃ k, t.states[b]? = some .filled ∧ t.keys[b]? = some k ∧ t.cells b = some k := by
  obtain ⟨state, hstate⟩ : ∃ state, t.states[b]? = some state :=
    ⟨_, List.getElem?_eq_getElem (by rw [h.length_states]; exact hb)⟩
  obtain ⟨k, hkey⟩ : ∃ k, t.keys[b]? = some k :=
    ⟨_, List.getElem?_eq_getElem (by rw [h.length_keys]; exact hb)⟩
  cases state with
  | inactive => exact Or.inl ⟨hstate, by rw [cells, hstate, if_neg (by decide)]⟩
  | active => exact absurd (List.mem_of_getElem? hstate) h.not_active
  | filled => exact Or.inr ⟨k, hstate, hkey, by rw [cells, if_pos hstate, hkey]⟩

/-! ## Probing -/

/-- The first buckets of the key's sequence are filled with other keys. -/
def Passed (t : HashSet) (key : UInt64) (d : ℕ) : Prop :=
  ∀ e < d, ∃ k, t.cells (t.bucket key e) = some k ∧ k ≠ key

theorem Passed.ne_none {d : ℕ} (h : t.Passed key d) :
    ∀ e < d, t.cells (t.bucket key e) ≠ none := by
  intro e he hnone
  obtain ⟨k, hk, -⟩ := h e he
  rw [hnone] at hk
  cases hk

theorem Passed.ne_some {d : ℕ} (h : t.Passed key d) :
    ∀ e < d, t.cells (t.bucket key e) ≠ some key := by
  intro e he hsome
  obtain ⟨k, hk, hne⟩ := h e he
  rw [hsome] at hk
  exact hne (Option.some.inj hk).symm

theorem Passed.succ {d : ℕ} {k : UInt64} (h : t.Passed key d)
    (hk : t.cells (t.bucket key d) = some k) (hne : k ≠ key) : t.Passed key (d + 1) := by
  intro e he
  rcases Nat.lt_succ_iff_lt_or_eq.1 he with he | rfl
  · exact h e he
  · exact ⟨k, hk, hne⟩

/-- **The first loop** ends at the key, at a free bucket, or without either. -/
theorem Holds.search_spec (h : t.Holds keys) (turns : ℕ) {offset : ℕ}
    (hpassed : t.Passed key offset) :
    (∃ d < offset + turns, t.Passed key d ∧
        (t.cells (t.bucket key d) = some key ∨ t.cells (t.bucket key d) = none) ∧
          t.search key turns offset none = some (.inl (t.bucket key d))) ∨
      t.Passed key (offset + turns) ∧ t.search key turns offset none = some (.inr none) := by
  induction turns generalizing offset with
  | zero => exact Or.inr ⟨hpassed, rfl⟩
  | succ turns ih =>
    rcases h.bucket_cases (h.bucket_lt key offset) with ⟨hstate, hcell⟩ | ⟨k, hstate, hkey, hcell⟩
    · refine Or.inl ⟨offset, by omega, hpassed, Or.inr hcell, ?_⟩
      simp [search, hstate]
    · by_cases heq : k = key
      · refine Or.inl ⟨offset, by omega, hpassed, Or.inl (heq ▸ hcell), ?_⟩
        simp [search, hstate, hkey, heq]
      · have hnext : t.search key (turns + 1) offset none =
            t.search key turns (offset + 1) none := by
          simp [search, hstate, hkey, heq]
        rw [hnext, show offset + (turns + 1) = offset + 1 + turns by omega]
        exact ih (hpassed.succ hcell heq)

/-- **The second loop** ends at the first free bucket, given the turns to get to one. -/
theorem Holds.allocate_spec (h : t.Holds keys) {d : ℕ} (hfree : t.cells (t.bucket key d) = none)
    (turns : ℕ) {offset : ℕ} (hle : offset ≤ d) (hlt : d < offset + turns)
    (hbefore : ∀ e < offset, t.cells (t.bucket key e) ≠ none) :
    ∃ c, offset ≤ c ∧ (∀ e < c, t.cells (t.bucket key e) ≠ none) ∧
      t.cells (t.bucket key c) = none ∧
        t.allocate key turns offset = some ({ t with maxProbeLength := c }, t.bucket key c) := by
  induction turns generalizing offset with
  | zero => omega
  | succ turns ih =>
    rcases h.bucket_cases (h.bucket_lt key offset) with ⟨hstate, hcell⟩ | ⟨k, hstate, -, hcell⟩
    · refine ⟨offset, le_rfl, hbefore, hcell, ?_⟩
      simp [allocate, hstate]
    · have hne : offset ≠ d := by
        rintro rfl
        rw [hfree] at hcell
        cases hcell
      have hnext : t.allocate key (turns + 1) offset = t.allocate key turns (offset + 1) := by
        simp [allocate, hstate]
      have hbefore' : ∀ e < offset + 1, t.cells (t.bucket key e) ≠ none := by
        intro e he
        rcases Nat.lt_succ_iff_lt_or_eq.1 he with he | rfl
        · exact hbefore e he
        · rw [hcell]
          exact Option.some_ne_none k
      obtain ⟨c, hc, hrest⟩ := ih (by omega) (by omega) hbefore'
      rw [hnext]
      exact ⟨c, by omega, hrest⟩

/-- With fewer keys than buckets, some bucket is free. -/
theorem Holds.exists_free (h : t.Holds keys) (hlt : keys.card < t.numBuckets) :
    ∃ b < t.numBuckets, t.states[b]? = some .inactive ∧ t.cells b = none := by
  by_contra hall
  have hfilled : ∀ state ∈ t.states, State.filled = state := by
    intro state hmem
    obtain ⟨b, hb, rfl⟩ := List.mem_iff_getElem.1 hmem
    rcases h.bucket_cases (h.length_states ▸ hb) with hcase | ⟨k, hstate, -⟩
    · exact absurd ⟨b, h.length_states ▸ hb, hcase⟩ hall
    · rw [List.getElem?_eq_getElem hb] at hstate
      exact (Option.some.inj hstate).symm
  have hcount := List.count_eq_length.2 hfilled
  rw [h.count_filled, h.length_states] at hcount
  omega

/-! ## Insertion -/

/-- Filling a bucket changes the contents of this bucket only. -/
theorem Sized.cells_fill (h : t.Sized) {b : ℕ} (hlt : b < t.numBuckets) (key : UInt64)
    (probeLength : ℤ) :
    (HashSet.fill { t with maxProbeLength := probeLength } b key).cells =
      Function.update t.cells b (some key) := by
  have hlts : b < t.states.length := by rw [h.length_states]; exact hlt
  have hltk : b < t.keys.length := by rw [h.length_keys]; exact hlt
  funext c
  by_cases hc : c = b
  · rw [hc, Function.update_self]
    simp [cells, HashSet.fill, hlts, hltk]
  · rw [Function.update_of_ne hc]
    simp [cells, HashSet.fill, List.getElem?_set_ne (Ne.symm hc)]

/-- A free bucket is filled with a key that the table does not hold. -/
theorem Holds.fill (h : t.Holds keys) (hkey : key ∉ keys) {d : ℕ}
    (hfree : t.cells (t.bucket key d) = none)
    (hbefore : ∀ e < d, t.cells (t.bucket key e) ≠ none) {probeLength : ℤ}
    (hd : (d : ℤ) ≤ probeLength) (hle : t.maxProbeLength ≤ probeLength) :
    (HashSet.fill { t with maxProbeLength := probeLength } (t.bucket key d) key).Holds
      (insert key keys) := by
  have hlt := h.bucket_lt key d
  obtain ⟨hstate, -⟩ | ⟨k, -, -, hcell⟩ := h.bucket_cases hlt
  swap
  · rw [hfree] at hcell
    cases hcell
  have hlts : t.bucket key d < t.states.length := by rw [h.length_states]; exact hlt
  have hcells := h.cells_fill hlt key probeLength
  exact {
    pow := h.pow
    length_states := by
      show (t.states.set _ _).length = t.numBuckets
      rw [List.length_set, h.length_states]
    length_keys := by
      show (t.keys.set _ _).length = t.numBuckets
      rw [List.length_set, h.length_keys]
    not_active := by
      intro hmem
      rcases List.mem_or_eq_of_mem_set hmem with hmem | hmem
      · exact h.not_active hmem
      · cases hmem
    probed := by
      rw [hcells]
      have hneg := h.neg_one_le
      refine @probed_insert _ _ t.bucket _ _ _ _ _ h.probed hbefore _ ?_ ?_
      · show d < (probeLength + 1).toNat
        omega
      · show (t.maxProbeLength + 1).toNat ≤ (probeLength + 1).toNat
        omega
    neg_one_le := h.neg_one_le.trans hle
    stored := by
      intro k
      rw [hcells, stored_insert hfree, h.stored, Finset.mem_insert]
    count_filled := by
      show (t.states.set _ _).count .filled = _
      have hinactive : t.states[t.bucket key d] = .inactive := by
        rw [List.getElem?_eq_getElem hlts] at hstate
        exact Option.some.inj hstate
      rw [List.count_set hlts, hinactive, h.count_filled, Finset.card_insert_of_notMem hkey]
      rfl
    numFilled := by
      show t.numFilled + 1 = _
      rw [h.numFilled, Finset.card_insert_of_notMem hkey] }

/-- **Insertion** takes place exactly if the table does not hold the key, and ends, as long
as there are fewer keys than buckets. -/
theorem Holds.checkInsert_spec (h : t.Holds keys) (hlt : keys.card < t.numBuckets) {turns : ℕ}
    (hturns : t.numBuckets ≤ turns) (key : UInt64) :
    ∃ t', t.checkInsert turns key = some (t', decide (key ∉ keys)) ∧
      t'.Holds (insert key keys) ∧ t'.numBuckets = t.numBuckets := by
  have hpassed : t.Passed key 0 := fun e he => absurd he (Nat.not_lt_zero e)
  rcases h.search_spec (t.maxProbeLength + 1).toNat hpassed with
    ⟨d, hd, hpass, hcell | hcell, hsearch⟩ | ⟨hpass, hsearch⟩
  · -- the key is found
    have hmem : key ∈ keys := (h.stored key).1 ⟨_, hcell⟩
    obtain ⟨-, hnone⟩ | ⟨k, hstate, -⟩ := h.bucket_cases (h.bucket_lt key d)
    · rw [hcell] at hnone
      cases hnone
    · refine ⟨t, ?_, by rwa [Finset.insert_eq_of_mem hmem], rfl⟩
      simp [checkInsert, findOrAllocate, hsearch, hstate, hmem]
  · -- a bucket within the probe length is free
    have hnot : key ∉ keys := by
      rw [← h.stored]
      exact not_stored_of_free h.probed hcell hpass.ne_some
    obtain ⟨hstate, -⟩ | ⟨k, -, -, hsome⟩ := h.bucket_cases (h.bucket_lt key d)
    · refine ⟨t.fill (t.bucket key d) key, ?_, ?_, rfl⟩
      · simp [checkInsert, findOrAllocate, hsearch, hstate, hnot]
      · have hneg := h.neg_one_le
        exact h.fill hnot hcell hpass.ne_none (by omega) le_rfl
    · rw [hcell] at hsome
      cases hsome
  · -- every bucket within the probe length is filled with another key
    rw [Nat.zero_add] at hpass
    have hnot : key ∉ keys := by
      rw [← h.stored]
      exact not_stored_of_bound h.probed hpass.ne_some
    obtain ⟨b, hb, -, hfree⟩ := h.exists_free hlt
    obtain ⟨d, hd, hhome⟩ := exists_add_mod_eq key.toNat hb
    rw [← h.bucket_eq] at hhome
    rw [← hhome] at hfree
    have hle : (t.maxProbeLength + 1).toNat ≤ d := by
      by_contra hlt
      exact hpass.ne_none d (by omega) hfree
    obtain ⟨c, hc, hbefore, hcell, hallocate⟩ :=
      h.allocate_spec hfree turns hle (by omega) hpass.ne_none
    obtain ⟨hstate, -⟩ | ⟨k, -, -, hsome⟩ := h.bucket_cases (h.bucket_lt key c)
    · have hneg := h.neg_one_le
      refine ⟨HashSet.fill { t with maxProbeLength := c } (t.bucket key c) key, ?_, ?_, rfl⟩
      · simp [checkInsert, findOrAllocate, hsearch, hallocate, hstate, hnot]
      · exact h.fill hnot hcell hbefore le_rfl (by omega)
    · rw [hcell] at hsome
      cases hsome

/-! ## Clearing and reserving -/

/-- A table without a filled bucket. -/
theorem Sized.holds_empty (h : t.Sized) (hstates : ∀ state ∈ t.states, state = .inactive)
    (hprobe : t.maxProbeLength = -1) (hfilled : t.numFilled = 0) : t.Holds ∅ := by
  have hcells : ∀ b, t.cells b = none := by
    intro b
    rw [cells, if_neg]
    intro hstate
    cases hstates _ (List.mem_of_getElem? hstate)
  exact {
    h with
    not_active := fun hmem => State.noConfusion (hstates _ hmem)
    probed := probed_of_free hcells
    neg_one_le := by rw [hprobe]
    stored := by
      intro key
      refine iff_of_false ?_ (Finset.notMem_empty key)
      rintro ⟨b, hb⟩
      rw [hcells] at hb
      cases hb
    count_filled := List.count_eq_zero.2 fun hmem => State.noConfusion (hstates _ hmem)
    numFilled := hfilled }

/-- **Clearing** leaves no key. -/
theorem Holds.clear (h : t.Holds keys) : t.clear.Holds ∅ := by
  refine Sized.holds_empty ⟨h.pow, ?_, h.length_keys⟩ ?_ rfl rfl
  · show (t.states.map _).length = t.numBuckets
    rw [List.length_map, h.length_states]
  · intro state hmem
    obtain ⟨old, hold, rfl⟩ := List.mem_map.1 hmem
    cases old with
    | inactive => rfl
    | active => exact absurd hold h.not_active
    | filled => rfl

/-- **Reserving** in a table that has no buckets yet. -/
theorem reserve_spec {numElems m : ℕ} (hm : m < 64)
    (hdouble : double (numElems + numElems / 2 + 1) (numElems + numElems / 2 + 1) 4 = 2 ^ m)
    (turns : ℕ) : ∃ t, HashSet.default.reserve turns numElems = some t ∧ t.Holds ∅ ∧
      t.numBuckets = 2 ^ m := by
  refine ⟨fresh (2 ^ m), ?_, ?_, rfl⟩
  · have hnone : HashSet.default.numBuckets = 0 := rfl
    rw [reserve, hnone, if_neg (by omega), hdouble]
    rfl
  · refine Sized.holds_empty ⟨⟨m, hm, rfl, rfl⟩, List.length_replicate, List.length_replicate⟩ ?_
      rfl rfl
    exact fun state hmem => List.eq_of_mem_replicate hmem

end HashSet

end Rtl
end Sword
