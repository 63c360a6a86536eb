import Sword.Tools.Footprint
import Sword.Tools.SolveMip

/-!
# What a tree represents, in the arithmetic of the code

Addresses wrap around at `2 ^ 64`, and so do the progressions of the nodes.  Read this
way an insertion does exactly one of two things: it adds the address inserted to
what the tree represents, or it changes no node at all.

* `represented`, `Tight` — what a node represents, and how its fields belong together.
* `Inert` — the nodes that end a search and are not changed; `coalesce_stop_self_iff`.
* `Room` — a node that grows does not exceed 32 bits; `coalesce_took`.
* `insertStep_took` — what an insertion does.
* `represents_all_iff` — when every access inserted is represented.
* `represents_only` — every address represented was inserted, as long as no count
  wraps around; `contiguous_count_wraps` is what happens then.
* `insert_again_iff` — when inserting an access changes no node.
-/

namespace Sword
namespace Tools

open Run
open scoped UInt64.CommRing

namespace IntervalTreeNode

/-! ## Nodes -/

/-- The addresses a node represents, modulo `2 ^ 64`. -/
def represented (n : IntervalTreeNode) : Set UInt64 :=
  {a | ∃ k < n.count.toNat, a = n.start + UInt64.ofNat k * n.diff.toUInt64}

/-- The fields of a node belong together, and the product in `END` does not wrap around. -/
structure Tight (n : IntervalTreeNode) : Prop where
  count_pos : 0 < n.count.toNat
  diff_eq_zero : n.diff = 0 ↔ n.count = 1
  span : n.diff.toNat * (n.count.toNat - 1) < 2 ^ 32
  last_eq : n.last = n.start + UInt64.ofNat (n.diff.toNat * (n.count.toNat - 1))

variable {n parent p : IntervalTreeNode}

theorem tight_make (s : UInt64) (st : UInt8) (pc : UInt64) (mtx : Finset UInt64) :
    (make s s st pc mtx).Tight where
  count_pos := Nat.one_pos
  diff_eq_zero := iff_of_true rfl rfl
  span := by simp [make]
  last_eq := by simp [make]

theorem represented_make (s l : UInt64) (st : UInt8) (pc : UInt64) (mtx : Finset UInt64) :
    (make s l st pc mtx).represented = {s} := by
  ext a
  simp [represented, make]

theorem ofNat_mul_diff (k : ℕ) (d : UInt32) :
    UInt64.ofNat (d.toNat * k) = UInt64.ofNat k * d.toUInt64 := by
  rw [UInt64.ofNat_mul, UInt64.ofNat_uInt32ToNat]
  ring

/-- `END` is the last element. -/
theorem Tight.END_eq (h : n.Tight) : n.END = n.last := by
  rw [END, h.last_eq, ← UInt64.ofNat_uInt32ToNat, toNat_span h.count_pos h.span]

/-- One more element at the end. -/
theorem represented_succ (hs : p.start = n.start) (hd : p.diff = n.diff)
    (hc : p.count.toNat = n.count.toNat + 1) :
    p.represented =
      insert (n.start + UInt64.ofNat n.count.toNat * n.diff.toUInt64) n.represented := by
  ext a
  simp only [represented, hs, hd, hc, Set.mem_ofPred_eq, Set.mem_insert_iff]
  constructor
  · rintro ⟨k, hk, rfl⟩
    by_cases hlast : k = n.count.toNat
    · exact Or.inl (by rw [hlast])
    · exact Or.inr ⟨k, by omega, rfl⟩
  · rintro (rfl | ⟨k, hk, rfl⟩)
    · exact ⟨_, Nat.lt_succ_self _, rfl⟩
    · exact ⟨k, by omega, rfl⟩

/-- One more element at the beginning. -/
theorem represented_pred (hs : p.start = n.start - n.diff.toUInt64) (hd : p.diff = n.diff)
    (hc : p.count.toNat = n.count.toNat + 1) :
    p.represented = insert p.start n.represented := by
  ext a
  simp only [represented, hd, hc, Set.mem_ofPred_eq, Set.mem_insert_iff]
  constructor
  · rintro ⟨k, hk, rfl⟩
    rcases k with - | k
    · exact Or.inl (by simp)
    · refine Or.inr ⟨k, by omega, ?_⟩
      rw [hs, UInt64.ofNat_add]
      simp only [UInt64.reduceOfNat]
      ring
  · rintro (rfl | ⟨k, hk, rfl⟩)
    · exact ⟨0, by omega, by simp⟩
    · refine ⟨k + 1, by omega, ?_⟩
      rw [hs, UInt64.ofNat_add]
      simp only [UInt64.reduceOfNat]
      ring

theorem start_mem_represented (h : 0 < n.count.toNat) : n.start ∈ n.represented :=
  ⟨0, h, by simp⟩

end IntervalTreeNode

open IntervalTreeNode

variable {n parent p : IntervalTreeNode}

/-! ## Insertion at a node -/

/-- The search ends at the parent and leaves it as it is: it has one address, which is not
within 64 bytes below that of the access; or the access is in its range, and not the
next element. -/
def Inert (n parent : IntervalTreeNode) : Prop :=
  SameKey n parent ∧
    if parent.diff = 0 then n.start = parent.start ∨ 64 ≤ n.start - parent.start
    else n.start ≠ parent.END + parent.diff.toUInt64 ∧ parent.start ≤ n.start ∧
      n.start ≤ parent.END

instance (n parent : IntervalTreeNode) : Decidable (Inert n parent) :=
  inferInstanceAs (Decidable (_ ∧ ite _ _ _))

/-- A parent that grows by one element does not exceed 32 bits. -/
def Room (n parent : IntervalTreeNode) : Prop :=
  parent.diff ≠ 0 → n.start = parent.END + parent.diff.toUInt64 ∨
    ¬ (parent.start ≤ n.start ∧ n.start ≤ parent.END) ∧
      n.start = parent.start - parent.diff.toUInt64 → parent.Grows

/-- The parent has become `p`, which represents the address of the access too. -/
structure Took (n parent p : IntervalTreeNode) : Prop where
  key : SameKey p parent
  tight : p.Tight
  represented_eq : p.represented = insert n.start parent.represented

theorem count_ne_succ (n : IntervalTreeNode) : n.count + 1 ≠ n.count := by
  intro h
  simp at h

/-- **The nodes that end a search and are not changed.** -/
theorem coalesce_stop_self_iff : coalesce n parent = .stop parent ↔ Inert n parent := by
  have hc := coalesced n parent
  generalize coalesce n parent = visit at hc ⊢
  -- a node that grows is not the node it was
  have hgrows : ∀ {q : IntervalTreeNode}, q.count = parent.count + 1 →
      Visit.stop q ≠ .stop parent := by
    intro q hq h
    rw [Visit.stop.inj h] at hq
    exact count_ne_succ parent hq.symm
  rw [Inert]
  cases hc with
  | otherKey hkey => exact iff_of_false (by simp) fun h => hkey h.1
  | second hkey hd hne hlt =>
    rw [if_pos hd]
    refine iff_of_false (hgrows rfl) ?_
    rintro ⟨-, heq | hfar⟩
    · exact hne (by rw [heq]; simp)
    · exact absurd hlt (UInt64.not_lt.2 hfar)
  | far hkey hd hfar =>
    rw [if_pos hd]
    exact iff_of_true rfl ⟨hkey, hfar⟩
  | append hkey hd happend =>
    rw [if_neg hd]
    exact iff_of_false (hgrows rfl) fun h => h.2.1 happend
  | inRange hkey hd happend hrange =>
    rw [if_neg hd]
    exact iff_of_true rfl ⟨hkey, happend, hrange⟩
  | prepend hkey hd happend hrange hprepend =>
    rw [if_neg hd]
    exact iff_of_false (hgrows rfl) fun h => hrange h.2.2
  | pass hkey hd happend hrange hprepend =>
    rw [if_neg hd]
    exact iff_of_false (by simp) fun h => hrange h.2.2

/-- A node with a difference, and one element more at its end. -/
theorem grow_took (hd : parent.diff ≠ 0) (hc : 0 < parent.count.toNat) (hg : parent.Grows) :
    parent.grow.Tight ∧ parent.grow.represented =
      insert (parent.start + UInt64.ofNat parent.count.toNat * parent.diff.toUInt64)
        parent.represented := by
  have hcount : parent.grow.count.toNat = parent.count.toNat + 1 := toNat_count_succ hg
  have hspan : parent.grow.diff.toNat * (parent.grow.count.toNat - 1) < 2 ^ 32 := by
    rw [hcount, Nat.add_sub_cancel]
    exact hg.1
  refine ⟨⟨by omega, iff_of_false hd ?_, hspan, ?_⟩, represented_succ rfl rfl hcount⟩
  · intro h
    rw [h] at hcount
    have hone : (1 : UInt32).toNat = 1 := rfl
    omega
  · rw [← toNat_span (by omega) hspan, UInt64.ofNat_uInt32ToNat]
    rfl

/-- A node with one element gets its difference. -/
theorem took_second (ht : parent.Tight) (hd : parent.diff = 0) (hne : n.start - parent.start ≠ 0)
    (hlt : n.start - parent.start < 64) :
    Took n parent (.grow { parent with diff := (n.start - parent.start).toUInt32 }) := by
  have hone : parent.count.toNat = 1 := by
    rw [ht.diff_eq_zero.1 hd]
    rfl
  obtain ⟨htight, hset⟩ := @grow_took { parent with diff := (n.start - parent.start).toUInt32 }
    (diff_ne_zero hne hlt) (by simp [hone])
    ⟨by simpa [hone] using UInt32.toNat_lt _, by simp [hone]⟩
  refine ⟨⟨rfl, rfl, rfl⟩, htight, hset.trans ?_⟩
  -- with one element the difference does not matter
  have hold : ∀ d : UInt32, IntervalTreeNode.represented { parent with diff := d } =
      {parent.start} := by
    intro d
    ext a
    simp [represented, hone]
  have hself := hold parent.diff
  rw [hold, show parent.represented = {parent.start} from hself]
  congr 1
  show parent.start + UInt64.ofNat parent.count.toNat *
    (n.start - parent.start).toUInt32.toUInt64 = n.start
  rw [toUInt64_diff hlt, hone]
  simp

/-- The address one step behind the last element, as that of an element. -/
theorem IntervalTreeNode.Tight.last_add_diff (ht : parent.Tight) :
    parent.last + parent.diff.toUInt64 =
      parent.start + UInt64.ofNat parent.count.toNat * parent.diff.toUInt64 := by
  obtain ⟨c, hc⟩ : ∃ c, parent.count.toNat = c + 1 :=
    ⟨parent.count.toNat - 1, (Nat.sub_add_cancel ht.count_pos).symm⟩
  rw [ht.last_eq, ofNat_mul_diff, hc, Nat.add_sub_cancel, UInt64.ofNat_add]
  simp only [UInt64.reduceOfNat]
  ring

theorem took_append (ht : parent.Tight) (hd : parent.diff ≠ 0) (hg : parent.Grows)
    (happend : n.start = parent.END + parent.diff.toUInt64) : Took n parent parent.grow := by
  obtain ⟨htight, hset⟩ := grow_took hd ht.count_pos hg
  refine ⟨⟨rfl, rfl, rfl⟩, htight, ?_⟩
  rw [hset, happend, ht.END_eq, ht.last_add_diff]

theorem took_prepend (ht : parent.Tight) (hd : parent.diff ≠ 0) (hg : parent.Grows)
    (hprepend : n.start = parent.start - parent.diff.toUInt64) :
    Took n parent { parent with start := n.start, count := parent.count + 1 } := by
  have hcount : (parent.count + 1).toNat = parent.count.toNat + 1 := toNat_count_succ hg
  refine ⟨⟨rfl, rfl, rfl⟩, ⟨?_, iff_of_false hd ?_, ?_, ?_⟩, represented_pred hprepend rfl hcount⟩
  · show 0 < (parent.count + 1).toNat
    omega
  · intro h
    have hpos := ht.count_pos
    have hone : (1 : UInt32).toNat = 1 := rfl
    have h : parent.count + 1 = 1 := h
    rw [h] at hcount
    omega
  · show parent.diff.toNat * ((parent.count + 1).toNat - 1) < 2 ^ 32
    rw [hcount, Nat.add_sub_cancel]
    exact hg.1
  · show parent.last = n.start +
      UInt64.ofNat (parent.diff.toNat * ((parent.count + 1).toNat - 1))
    -- the new start is one step below the old one, and the last element stays
    have hlast := ht.last_add_diff
    rw [hcount, Nat.add_sub_cancel, ofNat_mul_diff, hprepend, ← sub_eq_zero]
    rw [← sub_eq_zero] at hlast
    rw [← hlast]
    ring

/-- **Insertion at a node** of the search path where it ends: the node takes the access
in, or stays as it is. -/
theorem coalesce_took (ht : parent.Tight) (hroom : SameKey n parent → Room n parent)
    (h : coalesce n parent = .stop p) : SameKey n parent ∧ (p = parent ∨ Took n parent p) := by
  cases coalesced_stop h with
  | second hkey hd hne hlt => exact ⟨hkey, Or.inr (took_second ht hd hne hlt)⟩
  | far hkey _ _ => exact ⟨hkey, Or.inl rfl⟩
  | append hkey hd happend =>
    exact ⟨hkey, Or.inr (took_append ht hd (hroom hkey hd (Or.inl happend)) happend)⟩
  | inRange hkey _ _ _ => exact ⟨hkey, Or.inl rfl⟩
  | prepend hkey hd _ hrange hprepend =>
    have hg := hroom hkey hd (Or.inr ⟨hrange, hprepend⟩)
    exact ⟨hkey, Or.inr (took_prepend ht hd hg hprepend)⟩

/-! ## Insertion into a tree -/

/-- The accesses a list of nodes represents. -/
def representedBy (es : List IntervalTreeNode) : Set (Key × UInt64) :=
  {x | ∃ n ∈ es, n.key = x.1 ∧ x.2 ∈ n.represented}

theorem mem_representedBy_append {es fs : List IntervalTreeNode} {x : Key × UInt64} :
    x ∈ representedBy (es ++ fs) ↔ x ∈ representedBy es ∨ x ∈ representedBy fs := by
  simp [representedBy, or_and_right, exists_or]

theorem mem_representedBy_cons {n : IntervalTreeNode} {es : List IntervalTreeNode}
    {x : Key × UInt64} : x ∈ representedBy (n :: es) ↔
      n.key = x.1 ∧ x.2 ∈ n.represented ∨ x ∈ representedBy es := by
  simp [representedBy]

/-- The key and the address of a call. -/
def InsertCall.word (c : InsertCall) : Key × UInt64 := (c.key, c.address)

/-- At no node of the search path does a node that grows exceed 32 bits. -/
def InsertRoom (root : IntervalTree) (c : InsertCall) : Prop :=
  ∀ parent ∈ root.visited (coalesce c.node) (goLeft c.node),
    SameKey c.node parent → Room c.node parent

/-- Every node is tight. -/
def AllTight (es : List IntervalTreeNode) : Prop := ∀ n ∈ es, n.Tight

/-- Where the search for a call ends. -/
def InsertCall.place (root : IntervalTree) (c : InsertCall) : Place IntervalTreeNode :=
  root.place (coalesce c.node) (goLeft c.node)

/-- **An insertion** changes the node where the search ends, or adds one there. -/
theorem toList_insertStep (root : IntervalTree) (c : InsertCall) :
    (insertStep root c).toList = (c.place root).front ++
      (c.place root).landed (coalesce c.node) c.node :: (c.place root).behind := by
  have h := @toList_descend_place _ _ computeSubtreeLast (coalesce c.node) (goLeft c.node)
    (raise c.node.last) c.node c.node.last root [] fun e _ e' hv => coalesce_descend hv
  simp only [before, after, List.nil_append, List.append_nil] at h
  exact h

/-- The search ends at a node that recognises the access and stays as it is. -/
def Recognised (root : IntervalTree) (c : InsertCall) : Prop :=
  ∃ e ∈ root.visited (coalesce c.node) (goLeft c.node), Inert c.node e

/-- The walk of the tree, at the place where the search for a call ends. -/
theorem toList_eq_front_behind (root : IntervalTree) (c : InsertCall) :
    root.toList = (c.place root).front ++
      ((c.place root).stop.toList ++ (c.place root).behind) :=
  toList_eq_place (coalesce c.node) (goLeft c.node) root

theorem allTight_insertStep {root : IntervalTree} {c : InsertCall} (ht : AllTight root.toList)
    (hroom : InsertRoom root c) : AllTight (insertStep root c).toList := by
  refine (insertStep_descended root c).all ht (tight_make ..) fun e hseen hte e' hv => ?_
  obtain ⟨-, rfl | htook⟩ := coalesce_took hte (hroom e hseen) hv
  · exact hte
  · exact htook.tight

/-- A node that represents the address of a call, and what the nodes in its place represented,
adds the access of the call to what is represented. -/
theorem representedBy_insert {c : InsertCall} {q : IntervalTreeNode}
    {front old behind : List IntervalTreeNode} (hkey : q.key = c.key)
    (hset : ∀ a, a ∈ q.represented ↔ a = c.address ∨ (c.key, a) ∈ representedBy old)
    (hold : ∀ n ∈ old, n.key = c.key) :
    representedBy (front ++ q :: behind) =
      insert c.word (representedBy (front ++ (old ++ behind))) := by
  ext ⟨key, a⟩
  have hword : (key, a) = c.word ↔ key = c.key ∧ a = c.address := Prod.mk_inj
  have hkeys : (key, a) ∈ representedBy old → key = c.key := by
    rintro ⟨n, hn, hnkey, -⟩
    exact hnkey.symm.trans (hold n hn)
  rw [mem_representedBy_append, mem_representedBy_cons, Set.mem_insert_iff,
    mem_representedBy_append, mem_representedBy_append, hword]
  dsimp only
  rw [hset, hkey]
  constructor
  · rintro (hx | ⟨rfl, rfl | hx⟩ | hx)
    · exact Or.inr (Or.inl hx)
    · exact Or.inl ⟨rfl, rfl⟩
    · exact Or.inr (Or.inr (Or.inl hx))
    · exact Or.inr (Or.inr (Or.inr hx))
  · rintro (⟨rfl, rfl⟩ | hx | hx | hx)
    · exact Or.inr (Or.inl ⟨rfl, Or.inl rfl⟩)
    · exact Or.inl hx
    · obtain rfl := hkeys hx
      exact Or.inr (Or.inl ⟨rfl, Or.inr hx⟩)
    · exact Or.inr (Or.inr hx)

/-- **An insertion** adds the access to what the tree represents, or a node recognises
it and none is changed. -/
theorem insertStep_took {root : IntervalTree} {c : InsertCall} (ht : AllTight root.toList)
    (hroom : InsertRoom root c) :
    AllTight (insertStep root c).toList ∧
      (representedBy (insertStep root c).toList = insert c.word (representedBy root.toList) ∨
        Recognised root c ∧ (insertStep root c).toList = root.toList) := by
  refine ⟨allTight_insertStep ht hroom, ?_⟩
  have hlist := toList_insertStep root c
  have hroot := toList_eq_front_behind root c
  cases hs : (c.place root).stop with
  | none =>
    rw [hs] at hroot
    rw [Place.landed, hs] at hlist
    left
    rw [hlist, hroot]
    refine representedBy_insert rfl (fun a => ?_) fun n hn => (List.not_mem_nil hn).elim
    rw [InsertCall.node, represented_make]
    simp [representedBy]
  | some e =>
    rw [hs] at hroot
    rw [Place.landed, hs] at hlist
    obtain ⟨hseen, hv⟩ := mem_visited_of_stop hs
    have he : e ∈ root.toList := mem_toList_of_mem_visited hseen
    obtain ⟨hkey, hsame | htook⟩ := coalesce_took (ht e he) (hroom e hseen) hv
    · right
      refine ⟨⟨e, hseen, coalesce_stop_self_iff.1 (hv.trans (congrArg _ hsame))⟩, ?_⟩
      rw [hlist, hroot]
      dsimp only
      rw [hsame]
      rfl
    · left
      have hekey : e.key = c.key := (sameKey_iff.1 hkey).symm
      rw [hlist, hroot]
      refine representedBy_insert ((sameKey_iff.1 htook.key).trans hekey) (fun a => ?_) ?_
      · show a ∈ (coalesce c.node e).entry.represented ↔ _
        rw [htook.represented_eq, Set.mem_insert_iff]
        simp [representedBy, hekey, InsertCall.node, IntervalTreeNode.make]
      · intro n hn
        obtain rfl := Option.some.inj (Option.mem_toList.1 hn)
        exact hekey

/-- A search that ends at a node that recognises the access changes no node. -/
theorem toList_of_recognised {root : IntervalTree} {c : InsertCall} (h : Recognised root c) :
    (insertStep root c).toList = root.toList := by
  obtain ⟨e, hseen, hinert⟩ := h
  have hv := coalesce_stop_self_iff.2 hinert
  have hs : (c.place root).stop = some e := eq_of_stop hseen hv
  have hroot := toList_eq_front_behind root c
  rw [hs] at hroot
  rw [toList_insertStep, Place.landed, hs, hroot]
  dsimp only
  rw [hv]
  rfl

/-! ## Is every access represented -/

section Covers

variable {root : IntervalTree} {c : InsertCall}

/-- A progression that does not wrap around ends where it ends. -/
theorem IntervalTreeNode.Tight.toNat_END (ht : parent.Tight) (h : parent.start ≤ parent.END) :
    parent.END.toNat = parent.start.toNat + parent.diff.toNat * (parent.count.toNat - 1) := by
  have hspan := ht.span
  rw [UInt64.le_iff_toNat_le, ht.END_eq, ht.last_eq, UInt64.toNat_add, UInt64.toNat_ofNat'] at h
  rw [ht.END_eq, ht.last_eq, UInt64.toNat_add, UInt64.toNat_ofNat']
  have hlt := parent.start.toNat_lt
  generalize parent.diff.toNat * (parent.count.toNat - 1) = span at *
  omega

/-- A node that would drop the access leaves it, and itself, as it is. -/
theorem inert_of_not_kept (ht : parent.Tight) (hkey : SameKey n parent) (h : ¬ Kept n parent) :
    Inert n parent := by
  refine ⟨hkey, ?_⟩
  by_contra hno
  refine h ⟨fun hd => ?_, fun hd hlo hhi => ?_⟩
  · rw [if_pos hd, not_or, UInt64.not_le] at hno
    exact hno.2
  · rw [if_neg hd] at hno
    exfalso
    refine hno ⟨fun happend => ?_, hlo, hhi⟩
    have hEND := ht.toNat_END (UInt64.le_trans hlo hhi)
    have hspan := ht.span
    have hpos := diff_pos hd
    have hdlt := parent.diff.toNat_lt
    have hlt := parent.END.toNat_lt
    rw [UInt64.le_iff_toNat_le] at hlo hhi
    have hnat := congrArg UInt64.toNat happend
    rw [UInt64.toNat_add, UInt32.toNat_toUInt64] at hnat
    omega

/-- A node that would keep the access, and leaves it as it is, represents it. -/
theorem mem_represented_of_kept (ht : parent.Tight) (hinert : Inert n parent)
    (h : Kept n parent) : n.start ∈ parent.represented := by
  obtain ⟨-, hcase⟩ := hinert
  by_cases hd : parent.diff = 0
  · rw [if_pos hd] at hcase
    rcases hcase with heq | hfar
    · exact heq ▸ start_mem_represented ht.count_pos
    · exact absurd (h.near hd) (UInt64.not_lt.2 hfar)
  · rw [if_neg hd] at hcase
    obtain ⟨-, hlo, hhi⟩ := hcase
    have hEND := ht.toNat_END (UInt64.le_trans hlo hhi)
    obtain ⟨k, hk, heq⟩ := (Progression.mem_progression_iff (diff_pos hd) ht.count_pos).2
      ⟨UInt64.le_iff_toNat_le.1 hlo, hEND ▸ UInt64.le_iff_toNat_le.1 hhi, h.onStride hd hlo hhi⟩
    refine ⟨k, hk, ?_⟩
    rw [← ofNat_mul_diff, ← UInt64.ofNat_toNat (x := parent.start), ← UInt64.ofNat_add, ← heq,
      UInt64.ofNat_toNat]

/-- After an insertion the access is represented, unless a node dropped it and no other
node represents it. -/
theorem mem_insertStep_iff (ht : AllTight root.toList) (hroom : InsertRoom root c) :
    c.word ∈ representedBy (insertStep root c).toList ↔
      InsertKept root c ∨ c.word ∈ representedBy root.toList := by
  constructor
  · intro h
    by_contra hno
    rw [not_or] at hno
    obtain ⟨hdropped, hold⟩ := hno
    simp only [InsertKept, not_forall] at hdropped
    obtain ⟨e, hseen, hkey, hnk⟩ := hdropped
    have hinert := inert_of_not_kept (ht e (mem_toList_of_mem_visited hseen)) hkey hnk
    exact hold (toList_of_recognised ⟨e, hseen, hinert⟩ ▸ h)
  · obtain ⟨-, hset | ⟨⟨e, hseen, hinert⟩, hsame⟩⟩ := insertStep_took ht hroom
    · exact fun _ => hset ▸ Set.mem_insert _ _
    · rw [hsame]
      rintro (hkept | hold)
      · have he := mem_toList_of_mem_visited hseen
        exact ⟨e, he, (sameKey_iff.1 hinert.1).symm,
          mem_represented_of_kept (ht e he) hinert (hkept e hseen hinert.1)⟩
      · exact hold

/-- The bytes of the accesses a node represents. -/
def IntervalTreeNode.byteSet (n : IntervalTreeNode) : Set UInt64 :=
  {b | ∃ a ∈ n.represented, ∃ i < n.bytes, b = a + UInt64.ofNat i}

/-- Every access of the calls is represented by a node, with all its bytes. -/
def RepresentsAll (root : IntervalTree) (calls : List InsertCall) : Prop :=
  ∀ c ∈ calls, ∃ n ∈ root.toList, SameKey c.node n ∧ c.address ∈ n.represented ∧
    ∀ i < c.node.bytes, c.address + UInt64.ofNat i ∈ n.byteSet

theorem representsAll_iff {calls : List InsertCall} :
    RepresentsAll root calls ↔ ∀ c ∈ calls, c.word ∈ representedBy root.toList := by
  refine forall₂_congr fun c _ => ⟨?_, ?_⟩
  · rintro ⟨n, hn, hkey, hmem, -⟩
    exact ⟨n, hn, (sameKey_iff.1 hkey).symm, hmem⟩
  · rintro ⟨n, hn, hkey, hmem⟩
    have hsize : c.node.bytes = n.bytes := by
      rw [IntervalTreeNode.bytes, IntervalTreeNode.bytes,
        show n.sizeType = c.node.sizeType from congrArg Prod.fst hkey]
    exact ⟨n, hn, sameKey_iff.2 hkey.symm, hmem, fun i hi => ⟨_, hmem, i, hsize ▸ hi, rfl⟩⟩

/-- No access is dropped, or another node represents it. -/
def InsertCovered (root : IntervalTree) (c : InsertCall) : Prop :=
  InsertRoom root c ∧ (InsertKept root c ∨ c.word ∈ representedBy root.toList)

/-- An insertion takes nothing from what is represented. -/
theorem representedBy_subset (ht : AllTight root.toList) (hroom : InsertRoom root c) :
    representedBy root.toList ⊆ representedBy (insertStep root c).toList := by
  obtain ⟨-, hset | ⟨-, hsame⟩⟩ := insertStep_took ht hroom
  · exact hset ▸ Set.subset_insert _ _
  · rw [hsame]

/-- If all accesses so far are represented, they are after one more call exactly if its access
is. -/
theorem representsAll_concat_iff {done : List InsertCall} (ht : AllTight root.toList)
    (hroom : InsertRoom root c) (hdone : RepresentsAll root done) :
    RepresentsAll (insertStep root c) (done ++ [c]) ↔
      c.word ∈ representedBy (insertStep root c).toList := by
  rw [representsAll_iff] at hdone ⊢
  simp only [List.mem_append, List.mem_singleton]
  constructor
  · exact fun h => h c (Or.inr rfl)
  · rintro hc d (hd | rfl)
    · exact representedBy_subset ht hroom (hdone d hd)
    · exact hc

theorem guarded_covered_iff {calls done : List InsertCall} (ht : AllTight root.toList)
    (hdone : RepresentsAll root done) :
    Guarded insertStep InsertCovered root calls ↔ Guarded insertStep InsertRoom root calls ∧
      ∀ pre, pre <+: calls → RepresentsAll (exec insertStep root pre) (done ++ pre) := by
  induction calls generalizing root done with
  | nil =>
    refine iff_of_true trivial ⟨trivial, ?_⟩
    intro pre hpre
    rw [List.prefix_nil.1 hpre, List.append_nil]
    exact hdone
  | cons c calls ih =>
    rw [Guarded, Guarded, InsertCovered, and_assoc, and_assoc]
    refine and_congr_right fun hroom => ?_
    have ht' := allTight_insertStep ht hroom
    rw [← mem_insertStep_iff ht hroom, ← representsAll_concat_iff ht hroom hdone]
    constructor
    · rintro ⟨hc, hg⟩
      obtain ⟨hg', hall⟩ := (ih ht' hc).1 hg
      refine ⟨hg', fun pre hpre => ?_⟩
      rcases List.prefix_cons_iff.1 hpre with rfl | ⟨pre', rfl, hpre'⟩
      · rw [List.append_nil]
        exact hdone
      · have h := hall pre' hpre'
        rwa [List.append_assoc] at h
    · rintro ⟨hg', hall⟩
      have hc := hall [c] (List.prefix_cons_iff.2 (Or.inr ⟨[], rfl, List.nil_prefix⟩))
      refine ⟨hc, (ih ht' hc).2 ⟨hg', fun pre hpre => ?_⟩⟩
      have h := hall (c :: pre) (List.prefix_cons_iff.2 (Or.inr ⟨pre, rfl, hpre⟩))
      rwa [List.append_assoc]

end Covers

/-- **When every access is represented.**  As long as no node exceeds 32 bits, all accesses
inserted are represented after every call exactly if at every call no node of the
search path drops the access, or some node represents it already. -/
theorem represents_all_iff (calls : List InsertCall) :
    Guarded insertStep InsertCovered .nil calls ↔
      Guarded insertStep InsertRoom .nil calls ∧
        ∀ pre, pre <+: calls → RepresentsAll (load pre) pre := by
  have hnone : RepresentsAll .nil [] := fun c hc => (List.not_mem_nil hc).elim
  exact guarded_covered_iff (fun n hn => (List.not_mem_nil hn).elim) hnone

/-- Two writes of one instruction, 1000 bytes apart. -/
def distantWrites : List InsertCall := [⟨0, 0x21, 64, ∅⟩, ⟨1000, 0x21, 64, ∅⟩]

/-- The second is not represented. -/
theorem distantWrites_not_represented : ¬ RepresentsAll (load distantWrites) distantWrites := by
  intro h
  obtain ⟨n, hn, -, ⟨k, hk, haddr⟩, -⟩ := h ⟨1000, 0x21, 64, ∅⟩ (by simp [distantWrites])
  have hlist : (load distantWrites).toList = [⟨0, 0, 1, 0x21, 0, 64, ∅⟩] := by decide
  rw [hlist, List.mem_singleton] at hn
  subst hn
  have hk : k = 0 := Nat.lt_one_iff.1 hk
  subst hk
  exact absurd haddr (by decide)

/-! ## Is every address represented an access -/

/-- No product in `END` exceeds 32 bits. -/
def SpansFit (root : IntervalTree) : Prop :=
  ∀ n ∈ root.toList, n.diff.toNat * (n.count.toNat - 1) < 2 ^ 32

/-- Every address a node represents is that of an earlier access with the node's size,
type, program counter and lockset; the node ends at its last element, and it has a
difference exactly if it has more than one. -/
def RepresentsOnly (root : IntervalTree) (calls : List InsertCall) : Prop :=
  ∀ n ∈ root.toList,
    (∀ k < n.count.toNat, ∃ c ∈ calls, SameKey c.node n ∧
      c.address = n.start + UInt64.ofNat k * n.diff.toUInt64) ∧
    n.last = n.start + UInt64.ofNat (n.diff.toNat * (n.count.toNat - 1)) ∧
    (n.diff = 0 ↔ n.count = 1)

/-- A node with a difference that grows is in the tree with one element more. -/
theorem exists_grown {root : IntervalTree} {c : InsertCall} {e : IntervalTreeNode}
    (hseen : e ∈ root.visited (coalesce c.node) (goLeft c.node)) (hkey : SameKey c.node e)
    (hd : e.diff ≠ 0) (hgrows : c.node.start = e.END + e.diff.toUInt64 ∨
      ¬ (e.start ≤ c.node.start ∧ c.node.start ≤ e.END) ∧
        c.node.start = e.start - e.diff.toUInt64) :
    ∃ q ∈ (insertStep root c).toList, q.count = e.count + 1 ∧ q.diff = e.diff := by
  obtain ⟨q, hv, hqc, hqd⟩ : ∃ q, coalesce c.node e = .stop q ∧ q.count = e.count + 1 ∧
      q.diff = e.diff := by
    rw [coalesce, if_pos hkey, if_pos hd, tryExtend]
    by_cases happend : c.node.start = e.END + e.diff.toUInt64
    · rw [if_pos happend]
      exact ⟨_, rfl, rfl, rfl⟩
    · obtain ⟨hrange, hprepend⟩ := hgrows.resolve_left happend
      rw [if_neg happend, if_neg hrange, if_pos hprepend]
      exact ⟨_, rfl, rfl, rfl⟩
  have hs : (c.place root).stop = some e := eq_of_stop hseen hv
  refine ⟨q, ?_, hqc, hqd⟩
  rw [toList_insertStep, Place.landed, hs]
  dsimp only
  rw [hv]
  exact List.mem_append_right _ List.mem_cons_self

/-- A node whose product in `END` fits when its count has grown, without becoming 0. -/
theorem grows_of_fits {e q : IntervalTreeNode} (hcount : q.count = e.count + 1)
    (hdiff : q.diff = e.diff) (hne : q.count ≠ 0)
    (hfit : q.diff.toNat * (q.count.toNat - 1) < 2 ^ 32) : e.Grows := by
  have hsum : q.count.toNat = (e.count.toNat + 1) % 2 ^ 32 := by
    rw [hcount, UInt32.toNat_add]
    rfl
  have hlt := e.count.toNat_lt
  have hnz : q.count.toNat ≠ 0 := fun h => hne (UInt32.toNat_inj.1 h)
  have hsucc : e.count.toNat + 1 < 2 ^ 32 := by omega
  refine ⟨?_, hsucc⟩
  rwa [hsum, Nat.mod_eq_of_lt hsucc, Nat.add_sub_cancel, hdiff] at hfit

/-- A node that grows without its count becoming 0, or its product in `END` too large, has
room for one more element. -/
theorem insertRoom_of_fits {root : IntervalTree} {c : InsertCall}
    (hcount : ∀ n ∈ (insertStep root c).toList, n.count ≠ 0)
    (hspan : SpansFit (insertStep root c)) : InsertRoom root c := by
  intro e hseen hkey hd hgrows
  obtain ⟨q, hq, hqc, hqd⟩ := exists_grown hseen hkey hd hgrows
  exact grows_of_fits hqc hqd (hcount q hq) (hspan q hq)

/-- **No access is invented**, as long as no count becomes 0 and no product in `END`
exceeds 32 bits. -/
theorem represents_only (calls : List InsertCall)
    (h : ∀ pre, pre <+: calls →
      SpansFit (load pre) ∧ ∀ n ∈ (load pre).toList, n.count ≠ 0) :
    ∀ pre, pre <+: calls → RepresentsOnly (load pre) pre := by
  have hinv : ∀ pre, pre <+: calls → AllTight (load pre).toList ∧
      ∀ x ∈ representedBy (load pre).toList, ∃ c ∈ pre, c.word = x := by
    intro pre
    induction pre using List.reverseRecOn with
    | nil =>
      intro _
      refine ⟨fun n hn => (List.not_mem_nil hn).elim, ?_⟩
      rintro x ⟨n, hn, -⟩
      exact (List.not_mem_nil hn).elim
    | append_singleton pre c ih =>
      intro hpre
      obtain ⟨ht, hsound⟩ := ih ((List.prefix_append pre [c]).trans hpre)
      obtain ⟨hspan, hcount⟩ := h _ hpre
      have hload : load (pre ++ [c]) = insertStep (load pre) c := exec_concat ..
      rw [hload] at hspan hcount ⊢
      obtain ⟨ht', hcase⟩ := insertStep_took ht (insertRoom_of_fits hcount hspan)
      refine ⟨ht', fun x hx => ?_⟩
      have hold : x ∈ representedBy (load pre).toList → ∃ d ∈ pre ++ [c], d.word = x := by
        intro hx
        obtain ⟨d, hd, hdx⟩ := hsound x hx
        exact ⟨d, List.mem_append_left _ hd, hdx⟩
      rcases hcase with hset | ⟨-, hsame⟩
      · rw [hset] at hx
        rcases hx with rfl | hx
        · exact ⟨c, by simp, rfl⟩
        · exact hold hx
      · rw [hsame] at hx
        exact hold hx
  intro pre hpre n hn
  obtain ⟨ht, hsound⟩ := hinv pre hpre
  refine ⟨fun k hk => ?_, (ht n hn).last_eq, (ht n hn).diff_eq_zero⟩
  obtain ⟨c, hc, hword⟩ := hsound (n.key, n.start + UInt64.ofNat k * n.diff.toUInt64)
    ⟨n, hn, rfl, k, hk, rfl⟩
  exact ⟨c, hc, sameKey_iff.2 (congrArg Prod.fst hword), congrArg Prod.snd hword⟩

/-- An insertion that ends at the root of a tree of one node. -/
theorem insertStep_root {e e' : IntervalTreeNode} {b : UInt64} {c : InsertCall}
    (h : coalesce c.node e = .stop e') :
    insertStep (.node .black .nil e b .nil) c = .node .black .nil e' b .nil := by
  rw [insertStep, insertData, descend, h]
  rfl

/-- A loop that writes every `d`-th byte. -/
def strided (d : UInt32) (st : UInt8) (k : ℕ) : List InsertCall :=
  (List.range k).map fun i => ⟨UInt64.ofNat (d.toNat * i), st, 64, ∅⟩

theorem strided_succ (d : UInt32) (st : UInt8) (k : ℕ) :
    strided d st (k + 1) = strided d st k ++ [⟨UInt64.ofNat (d.toNat * k), st, 64, ∅⟩] := by
  simp [strided, List.range_succ]

/-- The product in `END` after `k` elements. -/
theorem toNat_strided {d : UInt32} (hd : d ≠ 0) {k : ℕ} (hpos : 0 < k)
    (hk : d.toNat * (k - 1) < 2 ^ 32) :
    (d * (UInt32.ofNat k - 1)).toNat = d.toNat * (k - 1) := by
  have hdpos : 0 < d.toNat := Nat.pos_of_ne_zero fun h => hd (UInt32.toNat_inj.1 (h.trans rfl))
  have hle : k - 1 ≤ d.toNat * (k - 1) := Nat.le_mul_of_pos_left _ hdpos
  have hsub : (UInt32.ofNat k - 1).toNat = k - 1 := by
    rw [UInt32.toNat_sub, UInt32.toNat_ofNat']
    simp
    omega
  rw [UInt32.toNat_mul, hsub, Nat.mod_eq_of_lt hk]

/-- The next element is taken in, and the count is the number of elements, modulo `2 ^ 32`. -/
theorem coalesce_strided {d : UInt32} (hd : d ≠ 0) (st : UInt8) {k : ℕ} (hpos : 0 < k)
    (hk : d.toNat * (k - 1) < 2 ^ 32) (last : UInt64) :
    coalesce (InsertCall.node ⟨UInt64.ofNat (d.toNat * k), st, 64, ∅⟩)
        ⟨0, last, UInt32.ofNat k, st, d, 64, ∅⟩ =
      .stop ⟨0, (d * UInt32.ofNat k).toUInt64, UInt32.ofNat (k + 1), st, d, 64, ∅⟩ := by
  have hEND : UInt64.ofNat (d.toNat * k) = 0 + (d * (UInt32.ofNat k - 1)).toUInt64 +
      d.toUInt64 := by
    have hmul : d.toNat * (k - 1) + d.toNat = d.toNat * k := by
      rw [← Nat.mul_succ, Nat.succ_eq_add_one, Nat.sub_add_cancel hpos]
    have hdlt := d.toNat_lt
    rw [← UInt64.toNat_inj, UInt64.toNat_add, UInt64.toNat_add, UInt32.toNat_toUInt64,
      UInt32.toNat_toUInt64, toNat_strided hd hpos hk, UInt64.toNat_ofNat']
    simp
    omega
  have hgrow : IntervalTreeNode.grow ⟨0, last, UInt32.ofNat k, st, d, 64, ∅⟩ =
      ⟨0, (d * UInt32.ofNat k).toUInt64, UInt32.ofNat (k + 1), st, d, 64, ∅⟩ := by
    simp [IntervalTreeNode.grow, IntervalTreeNode.END, UInt32.ofNat_add]
  have hext : tryExtend (InsertCall.node ⟨UInt64.ofNat (d.toNat * k), st, 64, ∅⟩)
      (IntervalTreeNode.END ⟨0, last, UInt32.ofNat k, st, d, 64, ∅⟩)
      ⟨0, last, UInt32.ofNat k, st, d, 64, ∅⟩ =
        some (IntervalTreeNode.grow ⟨0, last, UInt32.ofNat k, st, d, 64, ∅⟩) := if_pos hEND
  rw [coalesce, if_pos ⟨rfl, rfl, rfl⟩, if_pos hd, hext, hgrow]

/-- The tree after `k` elements. -/
def stridedTree (d : UInt32) (st : UInt8) (k : ℕ) : IntervalTree :=
  .node .black .nil ⟨0, UInt64.ofNat (d.toNat * (k - 1)), UInt32.ofNat k, st, d, 64, ∅⟩ 0 .nil

theorem load_strided {d : UInt32} (hd : d ≠ 0) {st : UInt8}
    (hbase : load (strided d st 2) = stridedTree d st 2) {k : ℕ} (hk : 2 ≤ k)
    (hfits : d.toNat * (k - 1) < 2 ^ 32) : load (strided d st k) = stridedTree d st k := by
  induction k, hk using Nat.le_induction with
  | base => exact hbase
  | succ k hk ih =>
    have hle : d.toNat * (k - 1) ≤ d.toNat * (k + 1 - 1) := Nat.mul_le_mul_left _ (by omega)
    have hlast : (d * UInt32.ofNat k).toUInt64 = UInt64.ofNat (d.toNat * (k + 1 - 1)) := by
      have hmul := toNat_strided hd (Nat.succ_pos k) hfits
      have hpred : UInt32.ofNat (k + 1) - 1 = UInt32.ofNat k := by simp [UInt32.ofNat_add]
      rw [Nat.succ_eq_add_one, hpred] at hmul
      rw [← UInt64.toNat_inj, UInt32.toNat_toUInt64, UInt64.toNat_ofNat', hmul]
      omega
    rw [strided_succ, load, exec_concat, ← load, ih (by omega), stridedTree,
      insertStep_root (coalesce_strided hd st (by omega) (by omega) _), hlast, stridedTree]

/-- A loop that writes one byte after the other. -/
def contiguous (k : ℕ) : List InsertCall :=
  (List.range k).map fun i => ⟨UInt64.ofNat i, 0x01, 64, ∅⟩

theorem contiguous_succ (k : ℕ) :
    contiguous (k + 1) = contiguous k ++ [⟨UInt64.ofNat k, 0x01, 64, ∅⟩] := by
  simp [contiguous, List.range_succ]

theorem prefix_contiguous {k : ℕ} {pre : List InsertCall} (h : pre <+: contiguous k) :
    ∃ j ≤ k, pre = contiguous j := by
  have hlen : pre.length ≤ k := by simpa [contiguous] using h.length_le
  refine ⟨pre.length, hlen, ?_⟩
  rw [List.prefix_iff_eq_take.1 h, contiguous, contiguous, ← List.map_take, List.take_range,
    List.length_map, List.length_range, min_eq_left hlen]

theorem represents_only_contiguous : RepresentsOnly (load (contiguous 2)) (contiguous 2) := by
  refine represents_only (contiguous 2) ?_ (contiguous 2) List.prefix_rfl
  intro pre hpre
  obtain ⟨j, hj, rfl⟩ := prefix_contiguous hpre
  have hlist : (load (contiguous j)).toList = [] ∨
      (load (contiguous j)).toList = [⟨0, 0, 1, 0x01, 0, 64, ∅⟩] ∨
        (load (contiguous j)).toList = [⟨0, 1, 2, 0x01, 1, 64, ∅⟩] := by
    interval_cases j
    · exact Or.inl rfl
    · exact Or.inr (Or.inl (by decide))
    · exact Or.inr (Or.inr (by decide))
  rw [SpansFit]
  rcases hlist with h | h | h <;> rw [h] <;> simp

/-- The next byte is taken in. -/
theorem coalesce_contiguous {k : ℕ} (hpos : 0 < k) (hk : k ≤ 2 ^ 32) (last : UInt64) :
    coalesce (InsertCall.node ⟨UInt64.ofNat k, 0x01, 64, ∅⟩)
        ⟨0, last, UInt32.ofNat k, 0x01, 1, 64, ∅⟩ =
      .stop ⟨0, (UInt32.ofNat k).toUInt64, UInt32.ofNat (k + 1), 0x01, 1, 64, ∅⟩ := by
  have hone : (1 : UInt32).toNat = 1 := rfl
  have h := @coalesce_strided 1 (by decide) 0x01 k hpos (by rw [hone]; omega) last
  rwa [hone, Nat.one_mul, UInt32.one_mul] at h

theorem load_contiguous {k : ℕ} (hk : 2 ≤ k) (hk' : k ≤ 2 ^ 32) :
    load (contiguous k) =
      .node .black .nil ⟨0, UInt64.ofNat (k - 1), UInt32.ofNat k, 0x01, 1, 64, ∅⟩ 0 .nil := by
  have hone : (1 : UInt32).toNat = 1 := rfl
  have hload := @load_strided 1 (by decide) 0x01 (by decide) k hk (by rw [hone]; omega)
  rw [strided, stridedTree, hone] at hload
  simp only [Nat.one_mul] at hload
  exact hload

/-- After `2 ^ 32 + 1` bytes the count has wrapped around to 1, and the node has a
difference all the same; no product in `END` has exceeded 32 bits. -/
theorem contiguous_count_wraps :
    (∀ pre, pre <+: contiguous (2 ^ 32 + 1) → SpansFit (load pre)) ∧
      ¬ RepresentsOnly (load (contiguous (2 ^ 32 + 1))) (contiguous (2 ^ 32 + 1)) := by
  have hlast : (load (contiguous (2 ^ 32 + 1))).toList =
      [⟨0, (UInt32.ofNat (2 ^ 32)).toUInt64, UInt32.ofNat (2 ^ 32 + 1), 0x01, 1, 64, ∅⟩] := by
    rw [contiguous_succ, load, exec_concat, ← load, load_contiguous (by norm_num) le_rfl,
      insertStep_root (coalesce_contiguous (by norm_num) le_rfl _)]
    rfl
  constructor
  · intro pre hpre
    obtain ⟨j, hj, rfl⟩ := prefix_contiguous hpre
    rw [SpansFit]
    by_cases htop : j = 2 ^ 32 + 1
    · rw [htop, hlast]
      simp
    · by_cases htwo : 2 ≤ j
      · rw [load_contiguous htwo (by omega)]
        intro n hn
        obtain rfl := List.mem_singleton.1 hn
        have hlt := (UInt32.ofNat j).toNat_lt
        show (1 : UInt32).toNat * _ < _
        rw [show (1 : UInt32).toNat = 1 from rfl, Nat.one_mul]
        dsimp only
        omega
      · have hsmall : j = 0 ∨ j = 1 := by omega
        rcases hsmall with rfl | rfl
        · exact fun n hn => (List.not_mem_nil hn).elim
        · have hone : (load (contiguous 1)).toList = [⟨0, 0, 1, 0x01, 0, 64, ∅⟩] := by decide
          rw [hone]
          simp
  · intro h
    obtain ⟨-, -, hdiff⟩ := h _ (by rw [hlast]; exact List.mem_singleton_self _)
    have hcount : UInt32.ofNat (2 ^ 32 + 1) = 1 := by decide
    exact absurd (hdiff.2 hcount) (by decide)

/-! ## Inserting an access again -/

/-- **When an insertion changes no node**: for any tree of insertions, exactly if its search
ends at a node that recognises the access; and loading accesses again changes no node,
if this is so for each of them. -/
theorem insert_again_iff (calls : List InsertCall) :
    (∀ c, (insertStep (load calls) c).toList = (load calls).toList ↔
        Recognised (load calls) c) ∧
      ∀ again, Guarded insertStep Recognised (load calls) again →
        (exec insertStep (load calls) again).toList = (load calls).toList := by
  refine ⟨fun c => ⟨fun h => ?_, toList_of_recognised⟩, fun again hg => ?_⟩
  · have hroot := toList_eq_front_behind (load calls) c
    rw [toList_insertStep, hroot, List.append_cancel_left_eq] at h
    cases hs : (c.place (load calls)).stop with
    | none =>
      rw [hs] at h
      exact absurd (congrArg List.length h) (by simp)
    | some e =>
      obtain ⟨hseen, hv⟩ := mem_visited_of_stop hs
      rw [Place.landed, hs] at h
      have hself : (coalesce c.node e).entry = e := (List.cons_eq_cons.1 h).1
      exact ⟨e, hseen, coalesce_stop_self_iff.1 (hv.trans (congrArg _ hself))⟩
  · refine @invariant_of_guarded _ _ _ _ (fun root => root.toList = (load calls).toList)
      ?_ _ rfl _ hg
    intro root c h hrec
    rw [toList_of_recognised hrec, h]

/-- Writes of one instruction: every eighth byte from 0 to 16, and 20 and 24. -/
def crossingWrites : List InsertCall :=
  [0, 8, 20, 24, 16].map fun address => ⟨address, 0x21, 64, ∅⟩

/-- Byte 24 is represented by the second progression, but inserted again it is taken into
the first. -/
theorem crossingWrites_grow :
    ((0x21, 64, ∅), 24) ∈ representedBy (load crossingWrites).toList ∧
      (insertStep (load crossingWrites) ⟨24, 0x21, 64, ∅⟩).toList ≠
        (load crossingWrites).toList := by
  have hlist : (load crossingWrites).toList =
      [⟨0, 16, 3, 0x21, 8, 64, ∅⟩, ⟨20, 24, 2, 0x21, 4, 64, ∅⟩] := by decide
  have hlist' : (insertStep (load crossingWrites) ⟨24, 0x21, 64, ∅⟩).toList =
      [⟨0, 24, 4, 0x21, 8, 64, ∅⟩, ⟨20, 24, 2, 0x21, 4, 64, ∅⟩] := by decide
  rw [hlist, hlist']
  refine ⟨⟨⟨20, 24, 2, 0x21, 4, 64, ∅⟩, by simp, rfl, 1, by decide, by decide⟩, by decide⟩

end Tools
end Sword
