import Sword.Tools.SearchOrder

/-!
# The ends of a node, in exact integers

`END`, `last` and the count that folding computes are all meant to describe one
progression, `start + diff * (count - 1)` being its last element.  The code computes them
with wrapping arithmetic.

* `exactEnd`, `EndsExactly` — the last element in exact integers.
* `FoldsExactly`, `fold_exact_iff` — when folding two nodes keeps their ends exact and loses
  and invents no address; `oddNode_lost` shows two progressions out of phase.
* `stride_exact_iff` — when `END` and `last` are exact after every insertion;
  `sweep_END_wraps` is a sweep after which they are not.
-/

namespace Sword
namespace Tools

open Progression Run

namespace IntervalTreeNode

/-- `start + diff * (count - 1)` in exact integers. -/
def exactEnd (n : IntervalTreeNode) : ℤ :=
  n.start.toNat + n.diff.toNat * ((n.count.toNat : ℤ) - 1)

/-- `last` is the last element. -/
def EndsExactly (n : IntervalTreeNode) : Prop := (n.last.toNat : ℤ) = n.exactEnd

instance (n : IntervalTreeNode) : Decidable n.EndsExactly :=
  inferInstanceAs (Decidable (_ = _))

variable {n parent p : IntervalTreeNode}

/-- For a node that counts an element the last one is a natural number. -/
theorem exactEnd_eq (hc : 0 < n.count.toNat) :
    n.exactEnd = ((n.start.toNat + n.diff.toNat * (n.count.toNat - 1) : ℕ) : ℤ) := by
  rw [exactEnd]
  push_cast [Nat.cast_sub hc]
  rfl

theorem endsExactly_iff (hc : 0 < n.count.toNat) : n.EndsExactly ↔
    n.start.toNat + n.diff.toNat * (n.count.toNat - 1) = n.last.toNat := by
  rw [EndsExactly, exactEnd_eq hc, Nat.cast_inj, eq_comm]

/-- A node that counts no element ends one step before its start. -/
theorem EndsExactly.last_add_diff (h : n.EndsExactly) (hc : n.count.toNat = 0) :
    n.last.toNat + n.diff.toNat = n.start.toNat := by
  rw [EndsExactly, exactEnd, hc] at h
  omega

theorem addresses_eq_empty_iff : n.addresses = ∅ ↔ n.count.toNat = 0 := by
  constructor
  · intro h
    by_contra hc
    have hmem : n.start.toNat ∈ n.addresses := start_mem_progression (Nat.pos_of_ne_zero hc)
    rw [h] at hmem
    exact hmem
  · intro hc
    ext a
    simp [addresses, progression, hc]

end IntervalTreeNode

open IntervalTreeNode

variable {n parent p : IntervalTreeNode}

/-! ## Folding two nodes -/

/-- Two elements of a node have one residue, and its count covers the range between them. -/
theorem dist_of_mem_addresses {a b : ℕ} (ha : a ∈ n.addresses) (hb : b ∈ n.addresses) :
    a % n.diff.toNat = b % n.diff.toNat ∧
      b - a + n.diff.toNat ≤ n.diff.toNat * n.count.toNat := by
  obtain ⟨i, hi, rfl⟩ := ha
  obtain ⟨j, hj, rfl⟩ := hb
  refine ⟨by simp, ?_⟩
  have hle : n.diff.toNat * (j + 1) ≤ n.diff.toNat * n.count.toNat :=
    Nat.mul_le_mul_left _ hj
  rw [Nat.mul_succ] at hle
  omega

/-- The range a node's count can cover does not reach `2 ^ 64`. -/
theorem diff_mul_count_lt (n : IntervalTreeNode) : n.diff.toNat * n.count.toNat < 2 ^ 64 := by
  calc n.diff.toNat * n.count.toNat
      < 2 ^ 32 * 2 ^ 32 := Nat.mul_lt_mul'' n.diff.toNat_lt n.count.toNat_lt
    _ = 2 ^ 64 := by norm_num

/-- A difference of addresses that is one step, and wraps around or not. -/
theorem step_cases {a b : UInt64} {d : UInt32} (h : b - a = d.toUInt64) :
    a.toNat + d.toNat = b.toNat ∨ a.toNat + d.toNat = b.toNat + 2 ^ 64 := by
  have hnat := congrArg UInt64.toNat h
  rw [UInt64.toNat_sub, UInt32.toNat_toUInt64] at hnat
  have ha := a.toNat_lt
  have hb := b.toNat_lt
  omega

/-- No step is taken around `2 ^ 64` between two elements of one node. -/
theorem le_of_step {a b : UInt64} (ha : a.toNat ∈ p.addresses) (hb : b.toNat ∈ p.addresses)
    (h : b - a = p.diff.toUInt64) : a ≤ b := by
  have hdist := (dist_of_mem_addresses hb ha).2
  have hlt := diff_mul_count_lt p
  rw [UInt64.le_iff_toNat_le]
  rcases step_cases h with hstep | hstep <;> omega

/-- **Only such nodes can be folded**: if the folded node has every element of both. -/
theorem foldable_of_subset (hn : 0 < n.count.toNat) (hp : 0 < parent.count.toNat)
    (hne : n.EndsExactly) (hpe : parent.EndsExactly) (hd : parent.diff ≠ 0)
    (hpd : p.diff = parent.diff)
    (hsub : parent.addresses ∪ n.addresses ⊆ p.addresses) : Foldable n parent := by
  have hlast : ∀ {m : IntervalTreeNode}, 0 < m.count.toNat → m.EndsExactly →
      m.last.toNat ∈ m.addresses := by
    intro m hc he
    rw [← (endsExactly_iff hc).1 he]
    exact ⟨m.count.toNat - 1, Nat.sub_lt hc Nat.one_pos, rfl⟩
  have hps : parent.start.toNat ∈ p.addresses := hsub (Or.inl (start_mem_progression hp))
  have hns : n.start.toNat ∈ p.addresses := hsub (Or.inr (start_mem_progression hn))
  have hpl : parent.last.toNat ∈ p.addresses := hsub (Or.inl (hlast hp hpe))
  have hnl : n.last.toNat ∈ p.addresses := hsub (Or.inr (hlast hn hne))
  refine ⟨fun h => le_of_step hnl hps (hpd ▸ h), fun h => le_of_step hpl hns (hpd ▸ h),
    fun _ _ => ?_, ?_⟩
  · rw [← hpd]
    exact (dist_of_mem_addresses hps hns).1
  · have hmin : min parent.start.toNat n.start.toNat ∈ p.addresses := by
      rcases min_choice parent.start.toNat n.start.toNat with h | h <;> rw [h] <;> assumption
    have hmax : max parent.last.toNat n.last.toNat ∈ p.addresses := by
      rcases max_choice parent.last.toNat n.last.toNat with h | h <;> rw [h] <;> assumption
    have hdist := (dist_of_mem_addresses hmin hmax).2
    rw [hpd] at hdist
    have hpos := diff_pos hd
    have hcount := p.count.toNat_lt
    rw [← Nat.add_div_right _ hpos]
    calc _ ≤ parent.diff.toNat * p.count.toNat / parent.diff.toNat := Nat.div_le_div_right hdist
      _ = p.count.toNat := Nat.mul_div_cancel_left _ hpos
      _ < 2 ^ 32 := hcount

/-- **Such nodes are folded exactly.** -/
theorem fold_of_foldable (hn : 0 < n.count.toNat) (hp : 0 < parent.count.toNat)
    (hne : n.EndsExactly) (hpe : parent.EndsExactly) (hd : parent.diff ≠ 0)
    (hf : Foldable n parent) (h : foldNode n parent = .stop p) :
    p.EndsExactly ∧ p.addresses = parent.addresses ∪ n.addresses := by
  obtain ⟨-, hdiff, -, -⟩ := key_of_foldNode_stop h
  have hnl := (endsExactly_iff hn).1 hne
  have hpl := (endsExactly_iff hp).1 hpe
  rcases ends_of_foldable (by omega) (by omega) hf h with
    ⟨hcounts, hstart, rfl⟩ | ⟨-, start, last, rfl, hs, hl, hor⟩
  · refine ⟨hpe, ?_⟩
    rw [addresses_of_same hdiff hcounts.1 hstart, Set.union_self]
  · obtain ⟨hcount, hend, hset⟩ := refold_union hn hp hnl hpl hd hdiff hs hl
      (by rw [hs, hl]; exact hf.count) hor
    exact ⟨(endsExactly_iff (hcount ▸ Nat.succ_pos _)).2 hend, hset⟩

/-! ### Nodes that count no element -/

variable {m : IntervalTreeNode}

/-- The count computed from the ends of a node. -/
theorem toNat_count_refold_ends (hm : m.EndsExactly) (hmd : m.diff = parent.diff)
    (hd : parent.diff ≠ 0) : (parent.refold m.start m.last).count.toNat =
      if m.count.toNat = 0 then 2 ^ 64 / parent.diff.toNat % 2 ^ 32 else m.count.toNat := by
  have hpos := diff_pos hd
  by_cases hc : m.count.toNat = 0
  · have hstep := hm.last_add_diff hc
    have hdlt := parent.diff.toNat_lt
    have hslt := m.start.toNat_lt
    rw [hmd] at hstep
    have hsub : (m.last - m.start).toNat = 2 ^ 64 - parent.diff.toNat := by
      rw [UInt64.toNat_sub]
      omega
    have hquot : (2 ^ 64 - parent.diff.toNat) / parent.diff.toNat + 1 =
        2 ^ 64 / parent.diff.toNat := by
      rw [← Nat.add_div_right _ hpos, Nat.sub_add_cancel (by omega)]
    rw [if_pos hc]
    show (if parent.diff ≠ 0 then _ else _ : UInt32).toNat = _
    rw [if_pos hd, UInt64.toNat_toUInt32, UInt64.toNat_add, UInt64.toNat_div, hsub,
      UInt32.toNat_toUInt64]
    show ((2 ^ 64 - parent.diff.toNat) / parent.diff.toNat + 1) % 2 ^ 64 % 2 ^ 32 = _
    rw [hquot, Nat.mod_mod_of_dvd _ (by norm_num)]
  · have hlast := (endsExactly_iff (Nat.pos_of_ne_zero hc)).1 hm
    have hspan : (m.last.toNat - m.start.toNat) / parent.diff.toNat + 1 = m.count.toNat := by
      rw [← hlast, hmd, Nat.add_sub_cancel_left, Nat.mul_div_cancel_left _ hpos]
      omega
    have hlt := m.count.toNat_lt
    rw [if_neg hc, toNat_count_refold hd (by omega) (by omega), hspan]

/-- A node with the ends of another has its elements, exactly if it gets its count. -/
theorem refold_ends_iff (hm : m.EndsExactly) (hmd : m.diff = parent.diff) (hd : parent.diff ≠ 0) :
    ((parent.refold m.start m.last).EndsExactly ∧
        (parent.refold m.start m.last).addresses = m.addresses) ↔
      (m.count.toNat = 0 → 2 ^ 64 / parent.diff.toNat % 2 ^ 32 = 0) := by
  have hcount := toNat_count_refold_ends hm hmd hd
  have hsame : (parent.refold m.start m.last).count.toNat = m.count.toNat →
      (parent.refold m.start m.last).EndsExactly ∧
        (parent.refold m.start m.last).addresses = m.addresses := by
    intro h
    rw [EndsExactly, exactEnd, addresses, addresses, h]
    rw [EndsExactly, exactEnd, hmd] at hm
    exact ⟨hm, by rw [hmd]; rfl⟩
  by_cases hc : m.count.toNat = 0
  · rw [if_pos hc] at hcount
    constructor
    · rintro ⟨-, haddr⟩ -
      rwa [addresses_eq_empty_iff.2 hc, addresses_eq_empty_iff, hcount] at haddr
    · intro h
      exact hsame (by rw [hcount, h hc, hc])
  · rw [if_neg hc] at hcount
    exact iff_of_true (hsame hcount) fun h => absurd h hc

/-- A node without elements, folded into a parent, leaves the ends of the parent. -/
theorem refold_of_empty (hc : n.count.toNat = 0) (hne : n.EndsExactly)
    (h : foldNode n parent = .stop p) : p = parent.refold parent.start parent.last := by
  obtain ⟨-, hdiff, -, -⟩ := key_of_foldNode_stop h
  have hstep := hne.last_add_diff hc
  rw [hdiff] at hstep
  have hnlt := n.start.toNat_lt
  have hllt := parent.last.toNat_lt
  cases folded_stop h with
  | below _ _ _ hbelow =>
    have heq : n.start = parent.start := by
      rw [← UInt64.toNat_inj]
      rcases step_cases hbelow with h | h <;> omega
    rw [heq]
  | above _ _ _ _ habove =>
    have heq : n.last = parent.last := by
      rw [← UInt64.toNat_inj]
      rcases step_cases habove with h | h <;> omega
    rw [heq]
  | overlap _ _ _ _ _ hrange =>
    have h1 := UInt64.le_iff_toNat_le.1 hrange.1
    have h2 := UInt64.le_iff_toNat_le.1 hrange.2
    have hstart : ite (parent.start < n.start) parent.start n.start = parent.start := by
      rw [← UInt64.toNat_inj, toNat_min]
      omega
    have hlast : ite (parent.last < n.last) n.last parent.last = parent.last := by
      rw [← UInt64.toNat_inj, toNat_max]
      omega
    rw [hstart, hlast]
  | same _ _ hcounts _ =>
    rw [hcounts.1, hcounts.2] at hc
    exact absurd hc (by decide)

/-- A node folded into a parent without elements leaves its own ends. -/
theorem refold_into_empty (hc : parent.count.toNat = 0) (hn : 0 < n.count.toNat)
    (hne : n.EndsExactly) (hpe : parent.EndsExactly) (h : foldNode n parent = .stop p) :
    p = parent.refold n.start n.last := by
  have hstep := hpe.last_add_diff hc
  have hnl := (endsExactly_iff hn).1 hne
  have hslt := parent.start.toNat_lt
  have hllt := n.last.toNat_lt
  have hnlt := n.start.toNat_lt
  cases folded_stop h with
  | below _ _ _ hbelow =>
    have heq : parent.last = n.last := by
      rw [← UInt64.toNat_inj]
      rcases step_cases hbelow with h | h <;> omega
    rw [heq]
  | above _ _ _ _ habove =>
    have heq : parent.start = n.start := by
      rw [← UInt64.toNat_inj]
      rcases step_cases habove with h | h <;> omega
    rw [heq]
  | overlap _ _ _ _ _ hrange =>
    have h1 := UInt64.le_iff_toNat_le.1 hrange.1
    have h2 := UInt64.le_iff_toNat_le.1 hrange.2
    have hstart : ite (parent.start < n.start) parent.start n.start = n.start := by
      rw [← UInt64.toNat_inj, toNat_min]
      omega
    have hlast : ite (parent.last < n.last) n.last parent.last = n.last := by
      rw [← UInt64.toNat_inj, toNat_max]
      omega
    rw [hstart, hlast]
  | same _ _ hcounts _ =>
    rw [hcounts.2] at hc
    exact absurd hc (by decide)

/-- When folding two nodes is exact.  Nodes with elements are foldable; of two nodes without
any, the count computed from the ends is 0 again. -/
structure FoldsExactly (n parent : IntervalTreeNode) : Prop where
  foldable : 0 < n.count.toNat → 0 < parent.count.toNat → Foldable n parent
  empty : n.count.toNat = 0 → parent.count.toNat = 0 →
    2 ^ 64 / parent.diff.toNat % 2 ^ 32 = 0

/-- **When folding two nodes is exact**: for any two nodes with a difference that end at their
last element, exactly if no test holds by wrapping around, overlapping ranges are in
phase, and the count fits. -/
theorem fold_exact_iff (n parent p : IntervalTreeNode) (hd : parent.diff ≠ 0)
    (hn : n.EndsExactly) (hparent : parent.EndsExactly) (h : foldNode n parent = .stop p) :
    (p.EndsExactly ∧ p.addresses = parent.addresses ∪ n.addresses) ↔ FoldsExactly n parent := by
  obtain ⟨-, hdiff, -, hpd⟩ := key_of_foldNode_stop h
  by_cases hnc : n.count.toNat = 0
  · rw [addresses_eq_empty_iff.2 hnc, Set.union_empty, refold_of_empty hnc hn h,
      refold_ends_iff hparent rfl hd]
    exact ⟨fun hempty => ⟨fun hpos => by omega, fun _ => hempty⟩, fun hf => hf.empty hnc⟩
  · by_cases hpc : parent.count.toNat = 0
    · rw [addresses_eq_empty_iff.2 hpc, Set.empty_union,
        refold_into_empty hpc (Nat.pos_of_ne_zero hnc) hn hparent h, refold_ends_iff hn hdiff hd]
      exact iff_of_true (fun h => absurd h hnc)
        ⟨fun _ hpos => by omega, fun h => absurd h hnc⟩
    · have hnpos := Nat.pos_of_ne_zero hnc
      have hppos := Nat.pos_of_ne_zero hpc
      constructor
      · rintro ⟨-, hset⟩
        exact ⟨fun _ _ => foldable_of_subset hnpos hppos hn hparent hd hpd hset.ge,
          fun h => absurd h hnc⟩
      · intro hf
        exact fold_of_foldable hnpos hppos hn hparent hd (hf.foldable hnpos hppos) h

/-- Bytes 0 and 8. -/
def evenNode : IntervalTreeNode := ⟨0, 8, 2, 0x21, 8, 64, ∅⟩

/-- Bytes 8 and 16. -/
def nextNode : IntervalTreeNode := ⟨8, 16, 2, 0x21, 8, 64, ∅⟩

/-- Bytes 4 and 12. -/
def oddNode : IntervalTreeNode := ⟨4, 12, 2, 0x21, 8, 64, ∅⟩

theorem fold_exact_nextNode :
    (IntervalTreeNode.EndsExactly ⟨0, 16, 3, 0x21, 8, 64, ∅⟩ ∧
      IntervalTreeNode.addresses ⟨0, 16, 3, 0x21, 8, 64, ∅⟩ =
        evenNode.addresses ∪ nextNode.addresses) ↔ FoldsExactly nextNode evenNode :=
  fold_exact_iff nextNode evenNode _ (by decide) (by decide) (by decide) (by decide)

/-- Bytes 4 and 12, folded into bytes 0 and 8, leave bytes 0 and 8 and the end 12. -/
theorem oddNode_lost :
    ¬ ∀ n parent p : IntervalTreeNode, parent.diff ≠ 0 → n.EndsExactly → parent.EndsExactly →
      foldNode n parent = .stop p →
        p.EndsExactly ∧ p.addresses = parent.addresses ∪ n.addresses := by
  intro h
  obtain ⟨hend, -⟩ := h oddNode evenNode ⟨0, 12, 2, 0x21, 8, 64, ∅⟩ (by decide) (by decide)
    (by decide) (by decide)
  exact absurd hend (by decide)

/-! ## The ends after an insertion -/

/-- `END` and `last` are the last element, for every node. -/
def AllEndExactly (es : List IntervalTreeNode) : Prop :=
  ∀ n ∈ es, (n.END.toNat : ℤ) = n.exactEnd ∧ n.EndsExactly

/-- Every node starts below `2 ^ 47`. -/
def AllLow (es : List IntervalTreeNode) : Prop := ∀ n ∈ es, n.start.toNat < 2 ^ 47

/-- A node starts at an address inserted. -/
theorem allLow_insertStep {root : IntervalTree} {c : InsertCall} (hlow : AllLow root.toList)
    (hc : c.address.toNat < 2 ^ 47) : AllLow (insertStep root c).toList := by
  refine (insertStep_descended root c).all hlow hc fun e _ he e' hv => ?_
  have hstart := restarts_coalesce c.node e
  rw [hv] at hstart
  rcases hstart with ⟨-, heq⟩ | heq
  · exact (congrArg UInt64.toNat heq).trans_lt hc
  · exact (congrArg UInt64.toNat heq).trans_lt he

/-- A tight node that starts below `2 ^ 47` does not wrap around. -/
theorem endsExactly_of_tight (ht : n.Tight) (hlow : n.start.toNat < 2 ^ 47) :
    (n.END.toNat : ℤ) = n.exactEnd ∧ n.EndsExactly := by
  have hspan := ht.span
  have hlast : n.start.toNat + n.diff.toNat * (n.count.toNat - 1) = n.last.toNat := by
    rw [ht.last_eq, UInt64.toNat_add, UInt64.toNat_ofNat']
    omega
  rw [EndsExactly, ht.END_eq, exactEnd_eq ht.count_pos, hlast]
  exact ⟨rfl, rfl⟩

/-- A node with a difference whose `END` is exact counts an element, and the product in `END`
does not wrap around. -/
theorem fits_of_exact (hd : n.diff ≠ 0) (hlow : n.start.toNat < 2 ^ 47)
    (h : (n.END.toNat : ℤ) = n.exactEnd) :
    n.count ≠ 0 ∧ n.diff.toNat * (n.count.toNat - 1) < 2 ^ 32 := by
  have hlt := (n.diff * (n.count - 1)).toNat_lt
  have hEND : n.END.toNat = n.start.toNat + (n.diff * (n.count - 1)).toNat := by
    rw [IntervalTreeNode.END, UInt64.toNat_add, UInt32.toNat_toUInt64]
    omega
  have hpos := diff_pos hd
  have hne : n.count.toNat ≠ 0 := by
    intro hc
    rw [exactEnd, hc] at h
    omega
  refine ⟨fun hc => hne (congrArg UInt32.toNat hc), ?_⟩
  rw [exactEnd_eq (Nat.pos_of_ne_zero hne), Nat.cast_inj] at h
  omega

/-- **An insertion keeps the ends exact** exactly if a node that grows has room. -/
theorem allEndExactly_insertStep_iff {root : IntervalTree} {c : InsertCall}
    (ht : AllTight root.toList) (hlow : AllLow root.toList) (hc : c.address.toNat < 2 ^ 47) :
    AllEndExactly (insertStep root c).toList ↔ InsertRoom root c := by
  have hlow' := allLow_insertStep hlow hc
  constructor
  · intro h e hseen hkey hd hgrows
    obtain ⟨q, hq, hqc, hqd⟩ := exists_grown hseen hkey hd hgrows
    obtain ⟨hne, hfit⟩ := fits_of_exact (hqd ▸ hd) (hlow' q hq) (h q hq).1
    exact grows_of_fits hqc hqd hne hfit
  · intro hroom n hn
    exact endsExactly_of_tight (allTight_insertStep ht hroom n hn) (hlow' n hn)

/-- **When the stride arithmetic does not wrap around**: for any insertions of addresses below
`2 ^ 47`, exactly if every node that grows has room for one more element. -/
theorem stride_exact_iff (calls : List InsertCall) (hlow : ∀ c ∈ calls, c.address.toNat < 2 ^ 47) :
    (∀ pre, pre <+: calls → AllEndExactly (load pre).toList) ↔
      Guarded insertStep InsertRoom .nil calls :=
  prefixes_iff_guarded (I := fun root : IntervalTree => AllTight root.toList ∧ AllLow root.toList)
    (fun _ c hc h hroom => ⟨allTight_insertStep h.1 hroom, allLow_insertStep h.2 (hlow c hc)⟩)
    (fun _ c hc h => allEndExactly_insertStep_iff h.1 h.2 (hlow c hc))
    (fun _ h n hn => endsExactly_of_tight (h.1 n hn) (h.2 n hn))
    ⟨fun _ hn => (List.not_mem_nil hn).elim, fun _ hn => (List.not_mem_nil hn).elim⟩

theorem stride_exact_crossingWrites :
    (∀ pre, pre <+: crossingWrites → AllEndExactly (load pre).toList) ↔
      Guarded insertStep InsertRoom .nil crossingWrites :=
  stride_exact_iff crossingWrites (by decide)

/-- A loop that writes `k` words of 8 bytes, one after the other. -/
def sweep (k : ℕ) : List InsertCall := strided 8 0x31 k

/-- After `2 ^ 29 + 1` words, all of them below `2 ^ 33`, the node of the loop ends at its
start: the product in `END` is 0. -/
theorem sweep_END_wraps :
    ¬ ∀ calls : List InsertCall, (∀ c ∈ calls, c.address.toNat < 2 ^ 47) →
      AllEndExactly (load calls).toList := by
  intro h
  have hload : (load (sweep (2 ^ 29 + 1))).toList =
      [⟨0, (8 * UInt32.ofNat (2 ^ 29)).toUInt64, UInt32.ofNat (2 ^ 29 + 1), 0x31, 8, 64, ∅⟩] := by
    rw [sweep, strided_succ, load, exec_concat, ← load,
      load_strided (by decide) (by decide) (by norm_num) (by decide), stridedTree,
      insertStep_root (coalesce_strided (by decide) 0x31 (by norm_num) (by decide) _)]
    rfl
  have hlow : ∀ c ∈ sweep (2 ^ 29 + 1), c.address.toNat < 2 ^ 47 := by
    intro c hc
    obtain ⟨i, hi, rfl⟩ := List.mem_map.1 hc
    rw [List.mem_range] at hi
    have height : (8 : UInt32).toNat = 8 := rfl
    show (UInt64.ofNat ((8 : UInt32).toNat * i)).toNat < 2 ^ 47
    rw [UInt64.toNat_ofNat', height]
    omega
  have hall := h _ hlow
  rw [hload] at hall
  exact absurd (hall _ (List.mem_singleton_self _)).2 (by decide)

end Tools
end Sword
