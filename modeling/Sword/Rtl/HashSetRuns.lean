import Sword.Lib.Run
import Sword.Rtl.HashSetOps

/-!
# Programs over tables: `rtl/sword_hashset.h`

A program has several tables, and copies them, a table to itself too.  What it sees of them is
what it would see of finite sets that have room for so many keys.

* `Op`, `step` — the operations, on the tables as they are.
* `KeySet`, `KeySet.step` — the operations on finite sets.
* `Op.Allowed` — what the interface asks of its callers.
* `Agree` — each table stores the keys of its set.
* `tables_refine_sets` — every program gets the same answers from both, and an insertion goes
  on for ever exactly where a new key does not fit.
-/

namespace Sword
namespace Rtl

open Tombstones

namespace HashSet

/-! ## The operations of a program -/

/-- An operation on the tables, which have names. -/
inductive Op (ι : Type)
  /-- `HashSet()` -/
  | construct (i : ι)
  /-- `HashSet(const HashSet&)` -/
  | copyConstruct (i other : ι)
  /-- `operator=(const HashSet&)` -/
  | assign (i other : ι)
  /-- `swap`, `operator=(HashSet&&)` -/
  | swap (i other : ι)
  | insert (i : ι) (key : UInt64)
  | checkInsert (i : ι) (key : UInt64)
  | insertUnique (i : ι) (key : UInt64)
  | erase (i : ι) (key : UInt64)
  /-- `erase(find(key))` -/
  | eraseFound (i : ι) (key : UInt64)
  /-- A loop that erases the keys that meet a condition and goes on with the iterator that
  `erase` returns. -/
  | eraseIf (i : ι) (p : UInt64 → Bool)
  | clear (i : ι)
  | reserve (i : ι) (numElems : ℕ)
  | find (i : ι) (key : UInt64)
  | contains (i : ι) (key : UInt64)
  | count (i : ι) (key : UInt64)
  | size (i : ι)
  /-- A loop from `begin()` to `end()`. -/
  | visit (i : ι)

/-- What the operation answers. -/
inductive Answer
  | done
  | flag (b : Bool)
  | number (n : ℕ)
  /-- The key at the iterator, if it is not `end()`. -/
  | found (key : Option UInt64)
  /-- The key at the iterator, and whether it was put there. -/
  | placed (key : Option UInt64) (took : Bool)
  | visited (keys : Multiset UInt64)

variable {ι : Type} [DecidableEq ι]

/-- `insert(const_iterator begin, const_iterator end)`, of keys of another table, which may be
the same. -/
def insertRange (turns : ℕ) (i other : ι) (stop : ℕ) :
    ℕ → (ι → HashSet) → ℕ → Option (ι → HashSet)
  | 0, _, _ => none
  | left + 1, s, bucket =>
    if bucket = stop then some s
    else do
      let key ← (s other).keys[bucket]?
      let (t, _) ← (s i).insert turns key
      let s := Function.update s i t
      insertRange turns i other stop left s ((s other).gotoNextElement bucket)

/-- `reserve(other.size()); insert(cbegin(other), cend(other));` -/
def copyFrom (turns : ℕ) (s : ι → HashSet) (i other : ι) : Option (ι → HashSet) := do
  let t ← (s i).reserve turns (s other).numFilled
  let s := Function.update s i t
  insertRange turns i other (s other).numBuckets turns s (s other).begin

/-- The loop of `eraseIf`. -/
def eraseLoop (p : UInt64 → Bool) : ℕ → HashSet → ℕ → Option HashSet
  | 0, _, _ => none
  | left + 1, t, bucket =>
    if bucket = t.numBuckets then some t
    else do
      let key ← t.keys[bucket]?
      if p key then
        let (t, bucket) ← t.eraseAt bucket
        eraseLoop p left t bucket
      else eraseLoop p left t (t.gotoNextElement bucket)

/-- An operation on the tables. -/
def step (turns : ℕ) (s : ι → HashSet) : Op ι → Option ((ι → HashSet) × Answer)
  | .construct i => some (Function.update s i default, .done)
  | .copyConstruct i other => do
    some (← copyFrom turns (Function.update s i default) i other, .done)
  | .assign i other => do
    some (← copyFrom turns (Function.update s i (s i).clear) i other, .done)
  | .swap i other =>
    some (Function.update (Function.update s i (s other)) other (s i), .done)
  | .insert i key => do
    let (t, bucket, took) ← (s i).insert turns key
    some (Function.update s i t, .placed t.keys[bucket]? took)
  | .checkInsert i key => do
    let (t, took) ← (s i).checkInsert turns key
    some (Function.update s i t, .flag took)
  | .insertUnique i key => do
    some (Function.update s i (← (s i).insertUnique turns key), .done)
  | .erase i key => do
    let (t, found) ← (s i).erase key
    some (Function.update s i t, .flag found)
  | .eraseFound i key => do
    let (t, _) ← (s i).eraseAt (← (s i).find key)
    some (Function.update s i t, .done)
  | .eraseIf i p => do
    some (Function.update s i (← eraseLoop p turns (s i) (s i).begin), .done)
  | .clear i => some (Function.update s i (s i).clear, .done)
  | .reserve i numElems => do
    some (Function.update s i (← (s i).reserve turns numElems), .done)
  | .find i key => do
    let bucket ← (s i).find key
    some (s, .found (if bucket = (s i).numBuckets then none else (s i).keys[bucket]?))
  | .contains i key => do some (s, .flag (← (s i).contains key))
  | .count i key => do some (s, .number (← (s i).count key))
  | .size i => some (s, .number (s i).numFilled)
  | .visit i => do some (s, .visited (← (s i).walk turns (s i).begin))

/-! ## Finite sets with room -/

/-- A finite set, and the keys there is room for. -/
structure KeySet where
  keys : Finset UInt64
  numBuckets : ℕ

/-- A set is filled with the keys of another, which may be the same. -/
def KeySet.copyFrom (a : ι → KeySet) (i other : ι) : ι → KeySet :=
  Function.update a i
    ⟨(a other).keys, roomFor (a i).numBuckets (a other).keys.card⟩

/-- An operation on finite sets. -/
def KeySet.step (a : ι → KeySet) : Op ι → Option ((ι → KeySet) × Answer)
  | .construct i => some (Function.update a i ⟨∅, 0⟩, .done)
  | .copyConstruct i other => some (copyFrom (Function.update a i ⟨∅, 0⟩) i other, .done)
  | .assign i other =>
    some (copyFrom (Function.update a i ⟨∅, (a i).numBuckets⟩) i other, .done)
  | .swap i other =>
    some (Function.update (Function.update a i (a other)) other (a i), .done)
  | .insert i key =>
    if key ∈ (a i).keys ∨ (a i).keys.card < (a i).numBuckets then
      some (Function.update a i ⟨Insert.insert key (a i).keys, (a i).numBuckets⟩,
        .placed (some key) (decide (key ∉ (a i).keys)))
    else none
  | .checkInsert i key =>
    if key ∈ (a i).keys ∨ (a i).keys.card < (a i).numBuckets then
      some (Function.update a i ⟨Insert.insert key (a i).keys, (a i).numBuckets⟩,
        .flag (decide (key ∉ (a i).keys)))
    else none
  | .insertUnique i key =>
    if (a i).keys.card < (a i).numBuckets then
      some (Function.update a i ⟨Insert.insert key (a i).keys, (a i).numBuckets⟩, .done)
    else none
  | .erase i key =>
    some (Function.update a i ⟨(a i).keys.erase key, (a i).numBuckets⟩,
      .flag (decide (key ∈ (a i).keys)))
  | .eraseFound i key =>
    some (Function.update a i ⟨(a i).keys.erase key, (a i).numBuckets⟩, .done)
  | .eraseIf i p =>
    some (Function.update a i ⟨(a i).keys.filter fun key => ¬ p key, (a i).numBuckets⟩, .done)
  | .clear i => some (Function.update a i ⟨∅, (a i).numBuckets⟩, .done)
  | .reserve i numElems =>
    some (Function.update a i ⟨(a i).keys, roomFor (a i).numBuckets numElems⟩, .done)
  | .find i key => some (a, .found (if key ∈ (a i).keys then some key else none))
  | .contains i key => some (a, .flag (decide (key ∈ (a i).keys)))
  | .count i key => some (a, .number (if key ∈ (a i).keys then 1 else 0))
  | .size i => some (a, .number (a i).keys.card)
  | .visit i => some (a, .visited (a i).keys.val)

/-- What the interface asks of its callers: a key that is inserted as a new one is new, an
iterator is at a key when it is erased; and no table is made for more than `2 ^ 29` keys. -/
def Op.Allowed (a : ι → KeySet) : Op ι → Prop
  | .insertUnique i key => key ∉ (a i).keys
  | .eraseFound i key => key ∈ (a i).keys
  | .reserve _ numElems => numElems ≤ 2 ^ 29
  | .copyConstruct _ other | .assign _ other => (a other).keys.card ≤ 2 ^ 29
  | _ => True

/-! ## The loops -/

variable {t : HashSet} {keys : Finset UInt64}

/-- **The erasing loop** goes on with the keys behind its iterator, and erases those that meet
the condition. -/
theorem Stores.eraseLoop_spec (h : t.Stores keys) (p : UInt64 → Bool) {left b : ℕ}
    (hb : b ≤ t.numBuckets) (hleft : t.numBuckets - b < left) :
    ∃ t', eraseLoop p left t (t.skip b) = some t' ∧
      t'.Stores (keys.filter fun key => ¬ (key ∈ t.keysFrom b ∧ p key)) ∧
        t'.numBuckets = t.numBuckets := by
  induction left generalizing t keys b with
  | zero => omega
  | succ left ih =>
    rcases h.skip_spec hb with ⟨hend, hnil⟩ | ⟨key, hcell, hle, hlt, hcons⟩
    · refine ⟨t, by rw [eraseLoop, if_pos hend], ?_, rfl⟩
      rw [Finset.filter_true_of_mem]
      · exact h
      · rintro k - ⟨hk, -⟩
        rw [hnil] at hk
        cases hk
    · have hkey := (of_cell_eq_key hcell).2
      have hnext : t.skip b + 1 ≤ t.numBuckets := hlt
      by_cases hp : p key
      · have herase := h.eraseAt_spec hcell
        have hskip := skip_vacate (t := t) (Nat.lt_succ_self (t.skip b))
        obtain ⟨t', hloop, hstores, hsame⟩ :=
          ih (h.vacate hcell) (b := t.skip b + 1) hnext (by
            show t.numBuckets - _ < _
            omega)
        rw [hskip] at hloop
        refine ⟨t', ?_, ?_, hsame⟩
        · rw [eraseLoop, if_neg hlt.ne]
          simp [hkey, hp, herase, gotoNextElement, hloop]
        · convert hstores using 1
          rw [keysFrom_vacate (Nat.lt_succ_self _), hcons]
          ext k
          by_cases hk : k = key
          · simp [hk, hp]
          · simp [hk]
      · obtain ⟨t', hloop, hstores, hsame⟩ := ih h hnext (by omega)
        refine ⟨t', ?_, ?_, hsame⟩
        · rw [eraseLoop, if_neg hlt.ne]
          simp [hkey, hp, gotoNextElement, hloop]
        · convert hstores using 1
          rw [hcons]
          ext k
          by_cases hk : k = key
          · simp [hk, hp]
          · simp [hk]

/-- **The copying loop** inserts the keys behind its iterator into another table that has room
for them. -/
theorem insertRange_spec {turns : ℕ} {i other : ι} (hne : other ≠ i) {s : ι → HashSet}
    (h : (s i).Stores keys) (hother : (s other).Formed) (hturns : (s i).numBuckets ≤ turns)
    {left b : ℕ} (hb : b ≤ (s other).numBuckets) (hleft : (s other).numBuckets - b < left)
    (hroom : (keys ∪ ((s other).keysFrom b).toFinset).card ≤ (s i).numBuckets) :
    ∃ t', insertRange turns i other (s other).numBuckets left s ((s other).skip b) =
        some (Function.update s i t') ∧
      t'.Stores (keys ∪ ((s other).keysFrom b).toFinset) ∧
        t'.numBuckets = (s i).numBuckets := by
  induction left generalizing s keys b with
  | zero => omega
  | succ left ih =>
    rcases hother.skip_spec hb with ⟨hend, hnil⟩ | ⟨key, hcell, hle, hlt, hcons⟩
    · refine ⟨s i, ?_, ?_, rfl⟩
      · rw [insertRange, if_pos hend, Function.update_eq_self]
      · rw [hnil, List.toFinset_nil, Finset.union_empty]
        exact h
    · have hkey := (of_cell_eq_key hcell).2
      rw [hcons, List.toFinset_cons, Finset.union_insert, ← Finset.insert_union] at hroom
      have hplace : key ∈ keys ∨ keys.card < (s i).numBuckets := by
        rw [or_iff_not_imp_left]
        intro hnot
        have hcard := Finset.card_insert_of_notMem hnot
        have hsub := (Finset.card_le_card Finset.subset_union_left).trans hroom
        omega
      obtain ⟨t₁, bucket, hinsert, -, hstores₁, hsame₁, -⟩ := h.insert_spec hturns hplace
      have hsi : Function.update s i t₁ i = t₁ := Function.update_self ..
      have hso : Function.update s i t₁ other = s other := Function.update_of_ne hne ..
      obtain ⟨t', hrange, hstores, hsame⟩ := @ih (Insert.insert key keys) (Function.update s i t₁)
        (by rwa [hsi]) (by rwa [hso]) (by rw [hsi]; omega) ((s other).skip b + 1)
        (by rw [hso]; exact hlt) (by rw [hso]; omega) (by rw [hsi, hso]; omega)
      rw [hso] at hrange hstores
      rw [Function.update_idem] at hrange
      refine ⟨t', ?_, ?_, by rw [hsame, hsi, hsame₁]⟩
      · rw [insertRange, if_neg hlt.ne]
        simp [hkey, hinsert, hso, gotoNextElement, hrange]
      · rwa [hcons, List.toFinset_cons, Finset.union_insert, ← Finset.insert_union]

/-! ## Refinement -/

/-- Each table stores the keys of its set, and an `int` can number its buckets. -/
structure Agree (s : ι → HashSet) (a : ι → KeySet) : Prop where
  stores : ∀ i, (s i).Stores (a i).keys
  numBuckets : ∀ i, (s i).numBuckets = (a i).numBuckets
  le : ∀ i, (a i).numBuckets ≤ 2 ^ 30

variable {s : ι → HashSet} {a : ι → KeySet}

/-- One table changes. -/
theorem Agree.update (h : Agree s a) (i : ι) {n : ℕ} (hstores : t.Stores keys)
    (hsame : t.numBuckets = n) (hle : n ≤ 2 ^ 30) :
    Agree (Function.update s i t) (Function.update a i ⟨keys, n⟩) where
  stores j := by
    by_cases hj : j = i
    · rw [hj, Function.update_self, Function.update_self]
      exact hstores
    · rw [Function.update_of_ne hj, Function.update_of_ne hj]
      exact h.stores j
  numBuckets j := by
    by_cases hj : j = i
    · rw [hj, Function.update_self, Function.update_self]
      exact hsame
    · rw [Function.update_of_ne hj, Function.update_of_ne hj]
      exact h.numBuckets j
  le j := by
    by_cases hj : j = i
    · rw [hj, Function.update_self]
      exact hle
    · rw [Function.update_of_ne hj]
      exact h.le j

/-- One table changes and keeps its arrays. -/
theorem Agree.update_same (h : Agree s a) (i : ι) (hstores : t.Stores keys)
    (hsame : t.numBuckets = (s i).numBuckets) :
    Agree (Function.update s i t) (Function.update a i ⟨keys, (a i).numBuckets⟩) :=
  h.update i hstores (hsame.trans (h.numBuckets i)) (h.le i)

theorem roomFor_le {numBuckets numElems : ℕ} (hle : numBuckets ≤ 2 ^ 30)
    (hnum : numElems ≤ 2 ^ 29) : roomFor numBuckets numElems ≤ 2 ^ 30 := by
  rw [roomFor]
  split
  · exact hle
  · have hclog : Nat.clog 2 (numElems + numElems / 2 + 1) ≤ 30 :=
      (Nat.clog_le_iff_le_pow (by decide)).2 (by omega)
    exact Nat.pow_le_pow_right (by decide) (max_le (by decide) hclog)

/-- There is room for the keys it was reserved for. -/
theorem lt_roomFor (numBuckets numElems : ℕ) : numElems < roomFor numBuckets numElems := by
  rw [roomFor]
  split
  · omega
  · have hpow : numElems + numElems / 2 + 1 ≤
        2 ^ max 2 (Nat.clog 2 (numElems + numElems / 2 + 1)) :=
      (Nat.clog_le_iff_le_pow (by decide)).1 (le_max_right _ _)
    omega

/-- **Copying**, into a table that is empty; from itself, it stays empty. -/
theorem Agree.copyFrom (h : Agree s a) {turns : ℕ} (hturns : 2 ^ 30 < turns) {i other : ι}
    (hempty : (a i).keys = ∅) (hcard : (a other).keys.card ≤ 2 ^ 29) :
    ∃ s', copyFrom turns s i other = some s' ∧ Agree s' (KeySet.copyFrom a i other) := by
  obtain ⟨t, hreserve, hstores, hsame⟩ := (h.stores i).reserve_spec hturns.le hcard
  rw [h.numBuckets i] at hsame
  have hroom := roomFor_le (h.le i) hcard
  rw [HashSet.copyFrom, (h.stores other).numFilled, hreserve]
  simp only [Option.bind_eq_bind, Option.bind_some]
  by_cases hself : other = i
  · subst hself
    rw [hempty] at hstores
    have hnil : t.keysFrom 0 = [] := by
      have hlen := hstores.length_keysFrom_zero
      rwa [Finset.card_empty, List.length_eq_zero_iff] at hlen
    have hbegin : t.begin = t.numBuckets := by
      rcases hstores.skip_spec (Nat.zero_le _) with ⟨hend, -⟩ | ⟨key, -, -, -, hcons⟩
      · exact hend
      · rw [hnil] at hcons
        cases hcons
    obtain ⟨left, rfl⟩ := Nat.exists_eq_succ_of_ne_zero (by omega : turns ≠ 0)
    refine ⟨_, ?_, h.update other (hempty ▸ hstores) hsame hroom⟩
    rw [Function.update_self, hbegin, insertRange, if_pos rfl]
  · have hso : Function.update s i t other = s other := Function.update_of_ne hself ..
    have hsi : Function.update s i t i = t := Function.update_self ..
    rw [hempty] at hstores
    obtain ⟨-, hkeys⟩ := (h.stores other).keysFrom_zero
    have hbuckets := (h.numBuckets other).trans_le (h.le other)
    obtain ⟨t', hrange, hstores', hsame'⟩ :=
      insertRange_spec hself (s := Function.update s i t) (by rwa [hsi])
        (by rw [hso]; exact (h.stores other).toFormed)
        (show (Function.update s i t i).numBuckets ≤ turns by rw [hsi]; omega) (Nat.zero_le _)
        (show _ < turns by rw [hso]; omega)
        (by
          rw [hsi, hso, hkeys, Finset.empty_union, hsame]
          exact (lt_roomFor _ _).le)
    rw [hso, hkeys, Finset.empty_union] at hstores'
    rw [Function.update_idem] at hrange
    refine ⟨_, ?_, h.update i hstores' (hsame'.trans (by rw [hsi, hsame])) hroom⟩
    rw [← hrange, hso]
    rfl

/-- A key is found where the set has it. -/
theorem Stores.find_spec (h : t.Stores keys) (key : UInt64) :
    (key ∈ keys ∧ ∃ b, t.cell b = .key key ∧ t.find key = some b) ∨
      (key ∉ keys ∧ t.find key = some t.numBuckets) := by
  rcases h.findFilledBucket_spec key with ⟨hmem, b, hcell, hfind⟩ | ⟨hnot, hfind⟩
  · exact Or.inl ⟨hmem, b, hcell, by simp [find, hfind]⟩
  · exact Or.inr ⟨hnot, by simp [find, hfind]⟩

/-! ## One operation -/

section Step

variable {turns : ℕ}

/-- The operation does the same to the tables and to the sets. -/
abbrev Matches (turns : ℕ) (s : ι → HashSet) (a : ι → KeySet) (op : Op ι) : Prop :=
  Option.Rel (fun x y => Agree x.1 y.1 ∧ x.2 = y.2) (step turns s op) (KeySet.step a op)

omit [DecidableEq ι] in
theorem Agree.numBuckets_lt (h : Agree s a) (hturns : 2 ^ 30 < turns) (i : ι) :
    (s i).numBuckets < turns := by
  have := h.le i
  rw [h.numBuckets i]
  omega

/-- Copying into a table just emptied. -/
theorem Agree.copyFrom_emptied {i other : ι} {n : ℕ}
    (h : Agree (Function.update s i t) (Function.update a i ⟨∅, n⟩)) (hturns : 2 ^ 30 < turns)
    (hcard : (a other).keys.card ≤ 2 ^ 29) :
    ∃ s', HashSet.copyFrom turns (Function.update s i t) i other = some s' ∧
      Agree s' (KeySet.copyFrom (Function.update a i ⟨∅, n⟩) i other) := by
  refine h.copyFrom hturns (by rw [Function.update_self]) ?_
  rw [Function.update_apply]
  split
  · exact Nat.zero_le _
  · exact hcard

theorem Agree.step_insert (h : Agree s a) (hturns : 2 ^ 30 < turns) (i : ι) (key : UInt64) :
    Matches turns s a (.insert i key) := by
  have hbuckets := (h.numBuckets_lt hturns i).le
  rw [Matches, step, KeySet.step]
  split
  · rename_i hroom
    rw [← h.numBuckets i] at hroom
    obtain ⟨t', b, hinsert, -, hstores, hsame, hkey⟩ := (h.stores i).insert_spec hbuckets hroom
    rw [hinsert]
    exact .some ⟨h.update_same i hstores hsame, congrArg (Answer.placed · _) hkey⟩
  · rename_i hfull
    rw [← h.numBuckets i] at hfull
    obtain ⟨hnot, hle⟩ := not_or.1 hfull
    rw [((h.stores i).insert_of_full hbuckets hnot (not_lt.1 hle)).1]
    exact .none

theorem Agree.step_checkInsert (h : Agree s a) (hturns : 2 ^ 30 < turns) (i : ι) (key : UInt64) :
    Matches turns s a (.checkInsert i key) := by
  have hbuckets := (h.numBuckets_lt hturns i).le
  rw [Matches, step, KeySet.step]
  split
  · rename_i hroom
    rw [← h.numBuckets i] at hroom
    obtain ⟨t', b, -, hinsert, hstores, hsame, -⟩ := (h.stores i).insert_spec hbuckets hroom
    rw [hinsert]
    exact .some ⟨h.update_same i hstores hsame, rfl⟩
  · rename_i hfull
    rw [← h.numBuckets i] at hfull
    obtain ⟨hnot, hle⟩ := not_or.1 hfull
    rw [((h.stores i).insert_of_full hbuckets hnot (not_lt.1 hle)).2]
    exact .none

theorem Agree.step_insertUnique (h : Agree s a) (hturns : 2 ^ 30 < turns) {i : ι} {key : UInt64}
    (hnew : key ∉ (a i).keys) : Matches turns s a (.insertUnique i key) := by
  rw [Matches, step, KeySet.step]
  split
  · rename_i hroom
    rw [← h.numBuckets i] at hroom
    obtain ⟨t', hinsert, hstores, hsame⟩ :=
      (h.stores i).insertUnique_spec (h.numBuckets_lt hturns i).le hnew hroom
    rw [hinsert]
    exact .some ⟨h.update_same i hstores hsame, rfl⟩
  · rename_i hfull
    rw [← h.numBuckets i] at hfull
    rw [(h.stores i).insertUnique_of_full turns (not_lt.1 hfull)]
    exact .none

theorem Agree.step_eraseFound (h : Agree s a) {i : ι} {key : UInt64} (hkey : key ∈ (a i).keys) :
    Matches turns s a (.eraseFound i key) := by
  rcases (h.stores i).find_spec key with ⟨-, b, hcell, hfind⟩ | ⟨hnot, -⟩
  · rw [Matches, step, KeySet.step, hfind]
    simp only [Option.bind_eq_bind, Option.bind_some, (h.stores i).eraseAt_spec hcell]
    exact .some ⟨h.update_same i ((h.stores i).vacate hcell) rfl, rfl⟩
  · exact absurd hkey hnot

theorem Agree.step_eraseIf (h : Agree s a) (hturns : 2 ^ 30 < turns) (i : ι) (p : UInt64 → Bool) :
    Matches turns s a (.eraseIf i p) := by
  obtain ⟨t', hloop, hstores, hsame⟩ :=
    (h.stores i).eraseLoop_spec p (Nat.zero_le _) (h.numBuckets_lt hturns i)
  have hkeys : (a i).keys.filter (fun key => ¬ (key ∈ (s i).keysFrom 0 ∧ p key)) =
      (a i).keys.filter fun key => ¬ p key := by
    refine Finset.filter_congr fun key hkey => ?_
    have hmem : key ∈ (s i).keysFrom 0 := by
      rwa [mem_keysFrom_zero, ← (h.stores i).keeps.mem_iff]
    simp [hmem]
  rw [hkeys] at hstores
  rw [Matches, step, KeySet.step, begin, hloop]
  exact .some ⟨h.update_same i hstores hsame, rfl⟩

theorem Agree.step_find (h : Agree s a) (i : ι) (key : UInt64) :
    Matches turns s a (.find i key) := by
  rw [Matches, step, KeySet.step]
  rcases (h.stores i).find_spec key with ⟨hmem, b, hcell, hfind⟩ | ⟨hnot, hfind⟩
  · have hlt := (h.stores i).lt_of_cell_eq_key hcell
    rw [hfind, if_pos hmem]
    refine .some ⟨h, congrArg Answer.found ?_⟩
    rw [if_neg hlt.ne, (of_cell_eq_key hcell).2]
  · rw [hfind, if_neg hnot]
    exact .some ⟨h, congrArg Answer.found (if_pos rfl)⟩

theorem Agree.step_contains (h : Agree s a) (i : ι) (key : UInt64) :
    Matches turns s a (.contains i key) := by
  rw [Matches, step, KeySet.step, contains]
  rcases (h.stores i).findFilledBucket_spec key with ⟨hmem, b, -, hfind⟩ | ⟨hnot, hfind⟩
  · rw [hfind]
    exact .some ⟨h, by simp [hmem]⟩
  · rw [hfind]
    exact .some ⟨h, by simp [hnot]⟩

theorem Agree.step_count (h : Agree s a) (i : ι) (key : UInt64) :
    Matches turns s a (.count i key) := by
  rw [Matches, step, KeySet.step, HashSet.count]
  rcases (h.stores i).findFilledBucket_spec key with ⟨hmem, b, -, hfind⟩ | ⟨hnot, hfind⟩
  · rw [hfind]
    exact .some ⟨h, by simp [hmem]⟩
  · rw [hfind]
    exact .some ⟨h, by simp [hnot]⟩

theorem Agree.step_visit (h : Agree s a) (hturns : 2 ^ 30 < turns) (i : ι) :
    Matches turns s a (.visit i) := by
  have hwalk := (h.stores i).walk_eq (Nat.zero_le _) (h.numBuckets_lt hturns i)
  obtain ⟨hnodup, hkeys⟩ := (h.stores i).keysFrom_zero
  rw [Matches, step, KeySet.step, begin, hwalk, ← hkeys]
  refine .some ⟨h, congrArg Answer.visited ?_⟩
  rw [List.toFinset_val, hnodup.dedup]

/-- **One operation** does the same to the tables and to the sets. -/
theorem Agree.step (h : Agree s a) (hturns : 2 ^ 30 < turns) {op : Op ι}
    (hallowed : op.Allowed a) : Matches turns s a op := by
  cases op with
  | construct i => exact .some ⟨h.update i stores_default rfl (Nat.zero_le _), rfl⟩
  | copyConstruct i other =>
    have hnew : Agree (Function.update s i default) (Function.update a i ⟨∅, 0⟩) :=
      h.update i stores_default rfl (Nat.zero_le _)
    obtain ⟨s', hcopy, hagree⟩ := hnew.copyFrom_emptied hturns hallowed
    rw [Matches, HashSet.step, KeySet.step, hcopy]
    exact .some ⟨hagree, rfl⟩
  | assign i other =>
    have hnew : Agree (Function.update s i (s i).clear)
        (Function.update a i ⟨∅, (a i).numBuckets⟩) :=
      h.update_same i (h.stores i).clear rfl
    obtain ⟨s', hcopy, hagree⟩ := hnew.copyFrom_emptied hturns hallowed
    rw [Matches, HashSet.step, KeySet.step, hcopy]
    exact .some ⟨hagree, rfl⟩
  | swap i other =>
    exact .some ⟨(h.update i (h.stores other) (h.numBuckets other) (h.le other)).update other
      (h.stores i) (h.numBuckets i) (h.le i), rfl⟩
  | insert i key => exact h.step_insert hturns i key
  | checkInsert i key => exact h.step_checkInsert hturns i key
  | insertUnique i key => exact h.step_insertUnique hturns hallowed
  | erase i key =>
    obtain ⟨t', herase, hstores, hsame⟩ := (h.stores i).vacated_spec key
    rw [Matches, HashSet.step, KeySet.step, herase]
    exact .some ⟨h.update_same i hstores hsame, rfl⟩
  | eraseFound i key => exact h.step_eraseFound hallowed
  | eraseIf i p => exact h.step_eraseIf hturns i p
  | clear i => exact .some ⟨h.update_same i (h.stores i).clear rfl, rfl⟩
  | reserve i numElems =>
    obtain ⟨t', hreserve, hstores, hsame⟩ := (h.stores i).reserve_spec hturns.le hallowed
    rw [h.numBuckets i] at hsame
    rw [Matches, HashSet.step, KeySet.step, hreserve]
    exact .some ⟨h.update i hstores hsame (roomFor_le (h.le i) hallowed), rfl⟩
  | find i key => exact h.step_find i key
  | contains i key => exact h.step_contains i key
  | count i key => exact h.step_count i key
  | size i => exact .some ⟨h, congrArg Answer.number (h.stores i).numFilled⟩
  | visit i => exact h.step_visit hturns i

end Step

/-! ## Runs -/

/-- **Tables are sets.**  A program over tables that are constructed empty, which never inserts
a key as a new one that is not, erases at an iterator that is at no key, or makes room for more
than `2 ^ 29` keys, gets the answers it would get from finite sets, and all along each table
stores the keys of its set; where the sets have no room for a new key, it gets no answer. -/
theorem tables_refine_sets {turns : ℕ} (hturns : 2 ^ 30 < turns) {ops : List (Op ι)}
    (hallowed : Run.Meets KeySet.step Op.Allowed (fun _ => ⟨∅, 0⟩) ops) :
    Option.Rel (fun x y => Agree x.1 y.1 ∧ x.2 = y.2)
      (Run.answers (step turns) (fun _ => default) ops)
      (Run.answers KeySet.step (fun _ => ⟨∅, 0⟩) ops) := by
  refine Run.answers_rel (fun s a op h hallowed => h.step hturns hallowed) ?_ hallowed
  exact ⟨fun _ => stores_default, fun _ => rfl, fun _ => Nat.zero_le _⟩

/-- Two keys with one home, the first of which is erased; a copy, and a copy of a table to
itself. -/
def twoTables : List (Op Bool) :=
  [.reserve false 4, .insert false 5, .insert false 13, .erase false 5, .checkInsert false 13,
    .insertUnique false 21, .assign true false, .assign false false, .eraseFound true 21,
    .visit true, .size false]

/-- The key behind an erased bucket is still found; the copy has the keys, and the table that
was copied to itself has none. -/
theorem tables_refine_sets_twoTables :
    (Run.answers (step (2 ^ 30 + 1)) (fun _ : Bool => default) twoTables).map Prod.snd =
      some [.done, .placed (some 5) true, .placed (some 13) true, .flag true, .flag false, .done,
        .done, .done, .done, .visited {13}, .number 0] := by
  have hallowed : Run.Meets KeySet.step Op.Allowed (fun _ : Bool => ⟨∅, 0⟩) twoTables := by
    simp [twoTables, Run.Meets, KeySet.step, KeySet.copyFrom, Op.Allowed, roomFor]
  have hsets : (Run.answers KeySet.step (fun _ : Bool => ⟨∅, 0⟩) twoTables).map Prod.snd =
      some [.done, .placed (some 5) true, .placed (some 13) true, .flag true, .flag false, .done,
        .done, .done, .done, .visited {13}, .number 0] := by
    simp [twoTables, Run.answers, KeySet.step, KeySet.copyFrom, roomFor]
  have hrel := tables_refine_sets (Nat.lt_succ_self (2 ^ 30)) hallowed
  generalize Run.answers (step (2 ^ 30 + 1)) (fun _ : Bool => default) twoTables = tables at *
  generalize Run.answers KeySet.step (fun _ : Bool => ⟨∅, 0⟩) twoTables = sets at hrel hsets
  cases hrel with
  | none => exact hsets
  | some h =>
    rw [Option.map_some, h.2]
    exact hsets

end HashSet

end Rtl
end Sword
