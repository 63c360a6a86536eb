import Sword.Tools.Overlap
import Sword.Tools.Pairing

/-!
# The analysis of a barrier interval

The accesses of each thread are loaded into a tree, and the pairing loop compares
the trees and merges them, until one is left.

* `Analysis`, `analyzeTrees` — the trees and the races found, and a call on two of
  the trees.
* `Schedule`, `analyze` — the calls of the pairing loop, those of a round in any
  order, and the analysis along them.
* `InterferingAccesses` — what makes two accesses of different threads a race.
* `no_missed_race` — no race is missed, if in every step no access is lost and no
  two racing nodes are overlooked.
* `no_false_race` — no race is invented, if in every step no progression is mixed
  with another and GLPK does not use an element beyond the last.
-/

namespace Sword
namespace Tools

open Run Tournament

/-! ## The run -/

/-- The trees, and `rep_races`. -/
structure Analysis where
  trees : ℕ → IntervalTree
  races : List (IntervalTreeNode × IntervalTreeNode) := []

/-- `analyze_trees(last, tree1, tree2, races)`. -/
def analyzeTrees (glpk : Glpk) (s : Analysis) (call : Match ℕ) : Option Analysis :=
  let r := overlap glpk (s.trees call.keep) (s.trees call.drop)
  let s' : Analysis := ⟨Function.update s.trees call.keep r.1, s.races ++ r.2⟩
  if call.last then some s'
  else (merge r.1 (s.trees call.drop)).map fun tree =>
    { s' with trees :=
        Function.update (Function.update s.trees call.keep tree) call.drop .nil }

/-- The trees as `load_and_convert_file` builds them. -/
def loaded (threads : List (List InsertCall)) : Analysis := ⟨fun i => load (threads.getD i []), []⟩

/-- The calls of the pairing loop on the trees of so many threads, those of a round in
any order. -/
def Schedule (n : ℕ) (calls : List (Match ℕ)) : Prop :=
  ∃ order, List.Forall₂ List.Perm order (rounds (List.range n)) ∧ calls = order.flatten

/-- The analysis of the threads' accesses, along a schedule. -/
def analyze (glpk : Glpk) (threads : List (List InsertCall)) (calls : List (Match ℕ)) :
    Option Analysis :=
  calls.foldlM (analyzeTrees glpk) (loaded threads)

/-- A schedule is a knockout tournament among the threads. -/
theorem Schedule.knockout {n : ℕ} {calls : List (Match ℕ)} (h : Schedule n calls) :
    Knockout (Finset.range n) calls := by
  obtain ⟨order, horder, rfl⟩ := h
  have hset : (List.range n).toFinset = Finset.range n := by
    ext i
    simp
  rw [← hset]
  exact knockout_rounds List.nodup_range horder

/-! ## The races of accesses -/

/-- The byte ranges of two accesses intersect, their types race, and they have no
mutex in common. -/
def InterferingAccesses (a b : InsertCall) : Prop :=
  (∃ x, a.address.toNat ≤ x ∧ x < a.address.toNat + a.node.bytes ∧
    b.address.toNat ≤ x ∧ x < b.address.toNat + b.node.bytes) ∧
    RACE a.node b.node = true ∧ Disjoint a.mutex b.mutex

theorem InterferingAccesses.symm {a b : InsertCall} (h : InterferingAccesses a b) :
    InterferingAccesses b a := by
  obtain ⟨⟨x, h1, h2, h3, h4⟩, hrace, hlock⟩ := h
  exact ⟨⟨x, h3, h4, h1, h2⟩, (RACE_comm _ _).trans hrace, hlock.symm⟩

/-- Nodes of the keys of two accesses, with their addresses. -/
theorem race_iff_of_mem {a b : InsertCall} {n m : IntervalTreeNode} (hn : n.key = a.key)
    (hm : m.key = b.key) : Conflict n m ↔ RACE a.node b.node = true ∧ Disjoint a.mutex b.mutex := by
  obtain ⟨h1, h2, h3⟩ : n.sizeType = a.sizeType ∧ n.pc = a.pc ∧ n.mutex = a.mutex := by
    simpa [IntervalTreeNode.key, InsertCall.key] using hn
  obtain ⟨h4, h5, h6⟩ : m.sizeType = b.sizeType ∧ m.pc = b.pc ∧ m.mutex = b.mutex := by
    simpa [IntervalTreeNode.key, InsertCall.key] using hm
  have hRACE : RACE n m = RACE a.node b.node := by
    simp only [RACE, getAccessType, h1, h4, InsertCall.node, IntervalTreeNode.make]
  rw [Conflict, hRACE, h3, h6]

theorem bytes_of_key {a : InsertCall} {n : IntervalTreeNode} (h : n.key = a.key) :
    n.bytes = a.node.bytes := by
  have hsize : n.sizeType = a.node.sizeType := congrArg Prod.fst h
  rw [IntervalTreeNode.bytes, IntervalTreeNode.bytes, hsize]

/-- Nodes that stand for two interfering accesses race. -/
theorem race_of_interfering {a b : InsertCall} {n m : IntervalTreeNode} (hn : n.key = a.key)
    (ha : a.address.toNat ∈ n.addresses) (hm : m.key = b.key)
    (hb : b.address.toNat ∈ m.addresses) (h : InterferingAccesses a b) : Race n m := by
  obtain ⟨⟨x, h1, h2, h3, h4⟩, hconf⟩ := h
  have hnb := bytes_of_key hn
  have hmb := bytes_of_key hm
  exact ⟨(race_iff_of_mem hn hm).2 hconf, _, ha, _, hb, x - a.address.toNat, by omega,
    x - b.address.toNat, by omega, by omega⟩

/-- Nodes that race share a byte of an address of each. -/
theorem interfering_of_race {n m : IntervalTreeNode} (h : Race n m) :
    ∃ x ∈ n.addresses, ∃ y ∈ m.addresses, ∀ a b : InsertCall, n.key = a.key →
      a.address.toNat = x → m.key = b.key → b.address.toNat = y → InterferingAccesses a b := by
  obtain ⟨hconf, x, hx, y, hy, i, hi, j, hj, heq⟩ := h
  refine ⟨x, hx, y, hy, ?_⟩
  rintro a b hn rfl hm rfl
  have hnb := bytes_of_key hn
  have hmb := bytes_of_key hm
  exact ⟨⟨a.address.toNat + i, by omega, by omega, by omega, by omega⟩,
    (race_iff_of_mem hn hm).1 hconf⟩

/-! ## One call -/

/-- The second tree can be merged into the first, as it is after the search. -/
def Mergeable (glpk : Glpk) (s : Analysis) (call : Match ℕ) : Prop :=
  GuardedM mergeNode MergeFits (overlap glpk (s.trees call.keep) (s.trees call.drop)).1
    (s.trees call.drop).toList.reverse

/-- A call of `analyze_trees` appends what the search reports; and unless it is the
last one, the first tree then stands for the accesses of both. -/
theorem analyzeTrees_spec {glpk : Glpk} {s : Analysis} {call : Match ℕ}
    (hne : call.keep ≠ call.drop) (hkeep : AllWellFormed (s.trees call.keep).toList)
    (hdrop : AllWellFormed (s.trees call.drop).toList)
    (h : call.last = false → Mergeable glpk s call) :
    ∃ s', analyzeTrees glpk s call = some s' ∧
      s'.races = s.races ++ (overlap glpk (s.trees call.keep) (s.trees call.drop)).2 ∧
      (call.last = false → AllWellFormed (s'.trees call.keep).toList ∧
        footprint (s'.trees call.keep).toList =
          footprint (s.trees call.keep).toList ∪ footprint (s.trees call.drop).toList ∧
        ∀ i, i ≠ call.keep → i ≠ call.drop → s'.trees i = s.trees i) := by
  rw [analyzeTrees]
  dsimp only
  cases hlast : call.last with
  | true =>
    rw [if_pos rfl]
    exact ⟨_, rfl, rfl, fun h => Bool.noConfusion h⟩
  | false =>
    have hlist := toList_overlap glpk (s.trees call.keep) (s.trees call.drop)
    obtain ⟨tree, hmerge, hwf, hset⟩ := merge_spec (by rw [hlist]; exact hkeep) hdrop (h hlast)
    rw [hlist] at hset
    rw [if_neg Bool.false_ne_true, hmerge]
    refine ⟨_, rfl, rfl, fun _ => ?_⟩
    have hself : Function.update (Function.update s.trees call.keep tree) call.drop .nil
        call.keep = tree := by
      rw [Function.update_of_ne hne, Function.update_self]
    dsimp only
    rw [hself]
    refine ⟨hwf, hset, fun i hk hd => ?_⟩
    rw [Function.update_of_ne hd, Function.update_of_ne hk]

/-! ## No missed race -/

/-- No access of the threads is lost when the trees are loaded. -/
def LoadsAll (threads : List (List InsertCall)) : Prop :=
  ∀ calls ∈ threads,
    Guarded insertStep (fun root c => InsertFits root c ∧ InsertKept root c) .nil calls

/-- No race is overlooked in a call, and no access is lost when the trees are merged. -/
def ComparesAll (glpk : Glpk) (s : Analysis) (call : Match ℕ) : Prop :=
  OverlapComplete (s.trees call.keep) (s.trees call.drop) ∧
    (call.last = false → Mergeable glpk s call)

/-- The races between the accesses of two threads are reported. -/
def Reported (threads : List (List InsertCall)) (s : Analysis) (i j : ℕ) : Prop :=
  ∀ a ∈ threads.getD i [], ∀ b ∈ threads.getD j [], InterferingAccesses a b →
    ∃ pair ∈ s.races, s(pair.1.pc, pair.2.pc) = s(a.pc, b.pc)

/-- The tree of thread `i` stands for all accesses of some threads. -/
def Holds (threads : List (List InsertCall)) (s : Analysis) (i : ℕ) (team : Set ℕ) : Prop :=
  AllWellFormed (s.trees i).toList ∧
    ∀ k ∈ team, accesses (threads.getD k []) ⊆ footprint (s.trees i).toList

theorem rules_comparesAll {glpk : Glpk} (hg : glpk.Documented)
    (threads : List (List InsertCall)) :
    Rules (analyzeTrees glpk) (ComparesAll glpk) (fun _ => True) (Holds threads)
      (Reported threads) := by
  constructor
  rintro s call A B hne - - ⟨hwfk, hk⟩ ⟨hwfd, hd⟩ ⟨hcomplete, hmerge⟩
  obtain ⟨s', hstep, hraces, hnext⟩ := analyzeTrees_spec hne hwfk hwfd hmerge
  refine ⟨s', hstep, trivial, ?_, ?_, ?_⟩
  · intro i j hij a ha b hb hinter
    obtain ⟨pair, hpair, hpcs⟩ := hij a ha b hb hinter
    exact ⟨pair, by rw [hraces]; exact List.mem_append_left _ hpair, hpcs⟩
  · have hfound : ∀ i ∈ A, ∀ j ∈ B, Reported threads s' i j := by
      intro i hi j hj a ha b hb hinter
      obtain ⟨parent, hp, hpkey, hpaddr⟩ := hk i hi ⟨a, ha, rfl⟩
      obtain ⟨node, hn, hnkey, hnaddr⟩ := hd j hj ⟨b, hb, rfl⟩
      have hrace := race_of_interfering hnkey hnaddr hpkey hpaddr hinter.symm
      have hmem := mem_overlap_of_race hg hwfk hwfd hcomplete hn hp hrace
      refine ⟨(node, parent), by rw [hraces]; exact List.mem_append_right _ hmem, ?_⟩
      have hnpc : node.pc = b.pc := congrArg (fun k : Key => k.2.1) hnkey
      have hppc : parent.pc = a.pc := congrArg (fun k : Key => k.2.1) hpkey
      dsimp only
      rw [hnpc, hppc, Sym2.eq_swap]
    intro i hi j hj
    refine ⟨hfound i hi j hj, ?_⟩
    intro b hb a ha hinter
    obtain ⟨pair, hpair, hpcs⟩ := hfound i hi j hj a ha b hb hinter.symm
    exact ⟨pair, hpair, hpcs.trans Sym2.eq_swap⟩
  · intro hlast
    obtain ⟨hwf, hset, hothers⟩ := hnext hlast
    refine ⟨⟨hwf, ?_⟩, ?_⟩
    · rw [hset]
      rintro k (hkA | hkB)
      · exact (hk k hkA).trans Set.subset_union_left
      · exact (hd k hkB).trans Set.subset_union_right
    · intro i C hik hid hi
      rw [Holds, hothers i hik hid]
      exact hi

/-- The analysis comes to an end, and for every two interfering accesses of different
threads it has found a pair of nodes with their program counters. -/
def FindsAll (glpk : Glpk) (threads : List (List InsertCall)) (calls : List (Match ℕ)) : Prop :=
  ∃ s, analyze glpk threads calls = some s ∧
    ∀ i < threads.length, ∀ j < threads.length, i ≠ j →
      ∀ a ∈ threads.getD i [], ∀ b ∈ threads.getD j [], InterferingAccesses a b →
        ∃ pair ∈ s.races, s(pair.1.pc, pair.2.pc) = s(a.pc, b.pc)

theorem getD_mem {α : Type} {threads : List (List α)} {i : ℕ} (h : i < threads.length) :
    threads.getD i [] ∈ threads := by
  rw [List.getD_eq_getElem _ _ h]
  exact List.getElem_mem _

/-- **No missed race.**  For all threads and accesses, and every order of the calls
within the rounds: if no insertion drops an access, every two racing nodes of
trees that are compared are on a search path and pass the range test (and access
more than one byte, if GLPK is asked), and the nodes of trees that are merged can
be folded or have one element, then the analysis comes to an end, and the program
counters of every two interfering accesses of different threads are found. -/
theorem no_missed_race (glpk : Glpk) (hg : glpk.Documented) (threads : List (List InsertCall))
    (calls : List (Match ℕ)) (hcalls : Schedule threads.length calls)
    (hload : LoadsAll threads)
    (hguard : GuardedM (analyzeTrees glpk) (ComparesAll glpk) (loaded threads) calls) :
    FindsAll glpk threads calls := by
  have hown : ∀ i ∈ Finset.range threads.length, Holds threads (loaded threads) i {i} := by
    intro i hi
    obtain ⟨hwf, hsub⟩ := load_complete (hload _ (getD_mem (Finset.mem_range.1 hi)))
    refine ⟨hwf.allWellFormed, ?_⟩
    rintro k rfl
    exact hsub
  obtain ⟨s, hrun, -, -, hall⟩ := hcalls.knockout.rule (rules_comparesAll hg threads)
    (T := fun i => {i}) trivial hown (fun i _ j _ hij => Set.disjoint_singleton.2 hij) hguard
  exact ⟨s, hrun, fun i hi j hj hij => hall i (Finset.mem_range.2 hi) j (Finset.mem_range.2 hj)
    hij i rfl j rfl⟩

/-- A write of four bytes without a mutex. -/
def write (address pc : UInt64) : InsertCall := ⟨address, 0x21, pc, ∅⟩

theorem schedule_two : Schedule 2 [⟨true, 0, 1⟩] := by
  refine ⟨[[⟨true, 0, 1⟩]], ?_, rfl⟩
  have hrounds : rounds (List.range 2) = [[⟨true, 0, 1⟩]] := by
    have hrange : List.range 2 = [0, 1] := rfl
    have hround : pairRound (([0, 1] : List ℕ).length : ℤ) [] [0, 1] = ([⟨true, 0, 1⟩], [0]) :=
      rfl
    rw [hrange, rounds, if_pos (by decide), hround, rounds, if_neg (by decide)]
  rw [hrounds]
  exact List.Forall₂.cons (List.Perm.refl _) List.Forall₂.nil

/-- Two threads write to one address. -/
def sameAddress : List (List InsertCall) := [[write 4096 64], [write 4096 65]]

theorem no_missed_race_sameAddress :
    FindsAll Glpk.exhaustive sameAddress [⟨true, 0, 1⟩] := by
  refine no_missed_race Glpk.exhaustive Glpk.documented_exhaustive sameAddress _ schedule_two ?_
    ⟨⟨?_, fun h => Bool.noConfusion h⟩, fun _ _ => trivial⟩
  · intro calls hcalls
    simp only [sameAddress, List.mem_cons, List.not_mem_nil, or_false] at hcalls
    rcases hcalls with rfl | rfl
    · exact ⟨⟨fun e he => (List.not_mem_nil he).elim, fun e he => (List.not_mem_nil he).elim⟩,
        trivial⟩
    · exact ⟨⟨fun e he => (List.not_mem_nil he).elim, fun e he => (List.not_mem_nil he).elim⟩,
        trivial⟩
  · intro node hnode parent hparent _
    have hn : node = (write 4096 65).node := List.mem_singleton.1 hnode
    have hp : parent = (write 4096 64).node := List.mem_singleton.1 hparent
    rw [hn, hp]
    exact ⟨List.mem_singleton.2 rfl, rfl, Or.inl rfl⟩

/-- One thread writes to two addresses that are far apart, another to the second of
them. -/
def distantAccess : List (List InsertCall) := [[write 0 64, write 1000 64], [write 1000 65]]

/-- The second write is dropped when it is inserted, and the race is not found. -/
theorem distantAccess_missed :
    Schedule 2 [⟨true, 0, 1⟩] ∧ ¬ FindsAll Glpk.exhaustive distantAccess [⟨true, 0, 1⟩] := by
  refine ⟨schedule_two, ?_⟩
  rintro ⟨s, hrun, hall⟩
  have hraces : (analyze Glpk.exhaustive distantAccess [⟨true, 0, 1⟩]).map Analysis.races =
      some [] := by
    have hoverlap : (overlap Glpk.exhaustive (load [write 0 64, write 1000 64])
        (load [write 1000 65])).2 = [] := by
      decide
    show some ([] ++ (overlap Glpk.exhaustive (load [write 0 64, write 1000 64])
      (load [write 1000 65])).2) = some []
    rw [hoverlap]
    rfl
  rw [hrun] at hraces
  have hinter : InterferingAccesses (write 1000 64) (write 1000 65) := by
    refine ⟨⟨1000, ?_⟩, ?_, ?_⟩ <;> decide
  obtain ⟨pair, hpair, -⟩ := hall 0 (by decide) 1 (by decide) (by decide) (write 1000 64)
    (by decide) (write 1000 65) (by decide) hinter
  rw [Option.some.inj hraces] at hpair
  exact List.not_mem_nil hpair

/-! ## No false race -/

/-- No progression wraps around when the trees are loaded. -/
def LoadsFit (threads : List (List InsertCall)) : Prop :=
  ∀ calls ∈ threads, Guarded insertStep InsertFits .nil calls

/-- No race is invented in a call, and no access when the trees are merged. -/
def ComparesOnly (glpk : Glpk) (s : Analysis) (call : Match ℕ) : Prop :=
  OverlapSound (s.trees call.keep) (s.trees call.drop) ∧
    (call.last = false → Mergeable glpk s call)

/-- A pair of nodes has a witness: two interfering accesses of different threads with
the program counters of the two nodes. -/
def Witnessed (threads : List (List InsertCall)) (pair : IntervalTreeNode × IntervalTreeNode) :
    Prop :=
  ∃ i j, i ≠ j ∧ ∃ a ∈ threads.getD i [], ∃ b ∈ threads.getD j [],
    a.pc = pair.1.pc ∧ b.pc = pair.2.pc ∧ InterferingAccesses a b

/-- The tree of thread `i` stands for accesses of some threads only. -/
def HoldsOnly (threads : List (List InsertCall)) (s : Analysis) (i : ℕ) (team : Set ℕ) : Prop :=
  AllWellFormed (s.trees i).toList ∧
    ∀ x ∈ footprint (s.trees i).toList, ∃ k ∈ team, x ∈ accesses (threads.getD k [])

theorem rules_comparesOnly {glpk : Glpk} (hg : glpk.Documented)
    (threads : List (List InsertCall)) :
    Rules (analyzeTrees glpk) (ComparesOnly glpk)
      (fun s => ∀ pair ∈ s.races, Witnessed threads pair) (HoldsOnly threads)
      (fun _ _ _ => True) := by
  constructor
  rintro s call A B hne hdisj hinv ⟨hwfk, hk⟩ ⟨hwfd, hd⟩ ⟨hsound, hmerge⟩
  obtain ⟨s', hstep, hraces, hnext⟩ := analyzeTrees_spec hne hwfk hwfd hmerge
  refine ⟨s', hstep, ?_, fun _ _ _ => trivial, fun _ _ _ _ => ⟨trivial, trivial⟩, ?_⟩
  · intro pair hpair
    rw [hraces] at hpair
    rcases List.mem_append.1 hpair with hold | hnew
    · exact hinv pair hold
    · obtain ⟨hn, hp, hrace⟩ := race_of_mem_overlap hg hwfk hwfd hsound hnew
      obtain ⟨x, hx, y, hy, hinter⟩ := interfering_of_race hrace
      obtain ⟨j, hj, b, hb, hbx⟩ := hd (pair.1.key, x) ⟨pair.1, hn, rfl, hx⟩
      obtain ⟨i, hi, a, ha, hay⟩ := hk (pair.2.key, y) ⟨pair.2, hp, rfl, hy⟩
      obtain ⟨hbkey, hbaddr⟩ := Prod.mk.inj hbx
      obtain ⟨hakey, haaddr⟩ := Prod.mk.inj hay
      refine ⟨j, i, ?_, b, hb, a, ha, congrArg (fun k : Key => k.2.1) hbkey,
        congrArg (fun k : Key => k.2.1) hakey, hinter b a hbkey.symm hbaddr hakey.symm haaddr⟩
      rintro rfl
      exact Set.disjoint_left.1 hdisj hi hj
  · intro hlast
    obtain ⟨hwf, hset, hothers⟩ := hnext hlast
    refine ⟨⟨hwf, ?_⟩, ?_⟩
    · rw [hset]
      rintro x (hx | hx)
      · obtain ⟨k, hkA, hmem⟩ := hk x hx
        exact ⟨k, Or.inl hkA, hmem⟩
      · obtain ⟨k, hkB, hmem⟩ := hd x hx
        exact ⟨k, Or.inr hkB, hmem⟩
    · intro i C hik hid hi
      rw [HoldsOnly, hothers i hik hid]
      exact hi

/-- The analysis comes to an end, and every pair of nodes it has found has a
witness. -/
def FindsOnly (glpk : Glpk) (threads : List (List InsertCall)) (calls : List (Match ℕ)) : Prop :=
  ∃ s, analyze glpk threads calls = some s ∧ ∀ pair ∈ s.races, Witnessed threads pair

/-- **No false race.**  For all threads and accesses, and every order of the calls
within the rounds: if no progression wraps around when it is loaded, every solution
of a program handed to GLPK comes with one within the elements of the two nodes, and
the nodes of trees that are merged can be folded or have one element, then the
analysis comes to an end, and every pair of nodes found has a witness. -/
theorem no_false_race (glpk : Glpk) (hg : glpk.Documented) (threads : List (List InsertCall))
    (calls : List (Match ℕ)) (hcalls : Schedule threads.length calls) (hload : LoadsFit threads)
    (hguard : GuardedM (analyzeTrees glpk) (ComparesOnly glpk) (loaded threads) calls) :
    FindsOnly glpk threads calls := by
  have hown : ∀ i ∈ Finset.range threads.length, HoldsOnly threads (loaded threads) i {i} := by
    intro i hi
    obtain ⟨hwf, hsub⟩ := load_sound (hload _ (getD_mem (Finset.mem_range.1 hi)))
    exact ⟨hwf.allWellFormed, fun x hx => ⟨i, rfl, hsub hx⟩⟩
  obtain ⟨s, hrun, hinv, -, -⟩ := hcalls.knockout.rule (rules_comparesOnly hg threads)
    (T := fun i => {i}) (fun pair hpair => (List.not_mem_nil hpair).elim) hown
    (fun i _ j _ hij => Set.disjoint_singleton.2 hij) hguard
  exact ⟨s, hrun, hinv⟩

theorem no_false_race_sameAddress :
    FindsOnly Glpk.exhaustive sameAddress [⟨true, 0, 1⟩] := by
  refine no_false_race Glpk.exhaustive Glpk.documented_exhaustive sameAddress _ schedule_two ?_
    ⟨⟨?_, fun h => Bool.noConfusion h⟩, fun _ _ => trivial⟩
  · intro calls hcalls
    simp only [sameAddress, List.mem_cons, List.not_mem_nil, or_false] at hcalls
    rcases hcalls with rfl | rfl
    · exact ⟨fun e he => (List.not_mem_nil he).elim, trivial⟩
    · exact ⟨fun e he => (List.not_mem_nil he).elim, trivial⟩
  · intro node hnode parent hparent _ _ hsingle
    have hn : node = (write 4096 65).node := List.mem_singleton.1 hnode
    have hp : parent = (write 4096 64).node :=
      List.mem_singleton.1 (mem_toList_of_mem_path hparent)
    rw [hn, hp] at hsingle
    exact absurd hsingle (by decide)

/-- Two loops of two writes each, over different bytes. -/
def overshootingLoops : List (List InsertCall) :=
  [[write 0 64, write 8 64], [write 4 65, write 16 65]]

/-- The third element of the first loop, which does not exist, meets the second
element of the second loop, and a race is found. -/
theorem overshootingLoops_invented :
    Schedule 2 [⟨true, 0, 1⟩] ∧ ¬ FindsOnly Glpk.exhaustive overshootingLoops [⟨true, 0, 1⟩] := by
  refine ⟨schedule_two, ?_⟩
  rintro ⟨s, hrun, hall⟩
  let parent : IntervalTreeNode := ⟨0, 8, 2, 0x21, 8, 64, ∅⟩
  let node : IntervalTreeNode := ⟨4, 16, 2, 0x21, 12, 65, ∅⟩
  have hload1 : load [write 0 64, write 8 64] = .node .black .nil parent 0 .nil := by decide
  have hload2 : load [write 4 65, write 16 65] = .node .black .nil node 4 .nil := by decide
  have hfound : (node, parent) ∈ (overlap Glpk.exhaustive (load [write 0 64, write 8 64])
      (load [write 4 65, write 16 65])).2 := by
    have hmip : solveMip Glpk.exhaustive node parent = true := by
      rw [solveMip_iff Glpk.documented_exhaustive]
      exact ⟨by decide, 1, by decide, 2, by decide, 0, by decide, 0, by decide, by decide⟩
    rw [mem_overlap_iff, hload1, hload2, reports_iff]
    refine ⟨by decide, by decide, ⟨by decide, by decide⟩, by decide, ?_⟩
    rw [sharing, Bool.or_eq_true]
    right
    rw [if_neg (by decide)]
    exact hmip
  have hraces : (analyze Glpk.exhaustive overshootingLoops [⟨true, 0, 1⟩]).map Analysis.races =
      some (overlap Glpk.exhaustive (load [write 0 64, write 8 64])
        (load [write 4 65, write 16 65])).2 := rfl
  rw [hrun] at hraces
  obtain ⟨i, j, hij, a, ha, b, hb, -, -, ⟨x, hx⟩, -⟩ := hall (node, parent)
    ((Option.some.inj hraces).symm ▸ hfound)
  have hbytes : ∀ address pc, (write address pc).node.bytes = 4 := by
    intro address pc
    show 1 <<< ((0x21 : UInt8) >>> 4).toNat = 4
    decide
  have hmem : ∀ {k : ℕ} {c : InsertCall}, c ∈ overshootingLoops.getD k [] →
      k = 0 ∧ (c = write 0 64 ∨ c = write 8 64) ∨ k = 1 ∧ (c = write 4 65 ∨ c = write 16 65) := by
    intro k c hc
    rcases k with - | - | k
    · exact Or.inl ⟨rfl, by simpa [overshootingLoops] using hc⟩
    · exact Or.inr ⟨rfl, by simpa [overshootingLoops] using hc⟩
    · simp [overshootingLoops] at hc
  have haddr : ∀ n pc, (write n pc).address = n := fun _ _ => rfl
  rcases hmem ha with ⟨rfl, rfl | rfl⟩ | ⟨rfl, rfl | rfl⟩ <;>
    rcases hmem hb with ⟨rfl, rfl | rfl⟩ | ⟨rfl, rfl | rfl⟩ <;>
    first
    | exact hij rfl
    | (simp only [hbytes, haddr, UInt64.reduceToNat] at hx; omega)

end Tools
end Sword
