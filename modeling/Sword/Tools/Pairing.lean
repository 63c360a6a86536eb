import Sword.Lib.Tournament

/-!
# The pairing loop of `main`

The trees of the threads are in a list.  In every round the loop goes through the
list, starts a call of `analyze_trees` for each two neighbours and erases the
second of them; the calls of a round run concurrently and are joined before the
next round.

* `pairRound` / `rounds` — the two loops.
* `pairRound_spec` — what a round does.
* `knockout_rounds` — the calls, those of a round in any order, are a knockout
  tournament among the trees.
* `nodup_players_rounds`, `last_rounds` — the calls of a round share no tree, and the
  last call is marked.
* `compared_once` — every two threads are compared exactly once.
-/

namespace Sword
namespace Tools

open Tournament

variable {ι : Type} [DecidableEq ι]

/-! ## The loops -/

/-- A round, from where the iterator stands: `done` are the trees before it.
`lst_size` is the number of trees from the iterator on, so a single tree there ends
the round. -/
def pairRound (lstSize : ℤ) (done : List ι) : List ι → List (Match ι) × List ι
  | tree1 :: tree2 :: rest =>
    if lstSize ≠ 1 then
      let last := (done ++ tree1 :: tree2 :: rest).length = 2
      let r := pairRound (lstSize - 2) (done ++ [tree1]) rest
      (⟨last, tree1, tree2⟩ :: r.1, r.2)
    else ([], done ++ tree1 :: tree2 :: rest)
  | rest => ([], done ++ rest)

omit [DecidableEq ι] in
/-- A round pairs neighbours, until at most one tree is left over; what stays are
the first trees of the pairs and this one; and no call is marked as the last, unless
there are just two trees. -/
theorem pairRound_spec (done rest : List ι) :
    ∃ left, left.length ≤ 1 ∧ rest = players (pairRound rest.length done rest).1 ++ left ∧
      (pairRound rest.length done rest).2 =
        done ++ (pairRound rest.length done rest).1.map Match.keep ++ left ∧
      (2 < (done ++ rest).length → ∀ m ∈ (pairRound rest.length done rest).1, m.last = false) := by
  induction rest using List.twoStepInduction generalizing done with
  | nil => exact ⟨[], Nat.zero_le _, rfl, by simp [pairRound], by simp [pairRound]⟩
  | singleton x => exact ⟨[x], Nat.le_refl _, rfl, by simp [pairRound], by simp [pairRound]⟩
  | cons_cons tree1 tree2 rest ih _ =>
    obtain ⟨left, hleft, hrest, htrees, hlast⟩ := ih (done ++ [tree1])
    have hsize : ((tree1 :: tree2 :: rest).length : ℤ) - 2 = rest.length := by
      rw [List.length_cons, List.length_cons]
      push_cast
      ring
    have hone : ((tree1 :: tree2 :: rest).length : ℤ) ≠ 1 := by
      rw [List.length_cons, List.length_cons]
      push_cast
      omega
    rw [pairRound, if_pos hone, hsize]
    dsimp only
    refine ⟨left, hleft, ?_, ?_, ?_⟩
    · rw [players, List.flatMap_cons]
      exact congrArg (fun l => tree1 :: tree2 :: l) hrest
    · rw [htrees]
      simp
    · intro hlen m hm
      rcases List.mem_cons.1 hm with rfl | hm
      · exact decide_eq_false (by omega)
      · refine hlast ?_ m hm
        rcases rest with - | ⟨x, - | ⟨y, rest⟩⟩
        · simp [pairRound] at hm
        · simp [pairRound] at hm
        · simp only [List.length_append, List.length_cons] at hlen ⊢
          omega

omit [DecidableEq ι] in
theorem length_players (ms : List (Match ι)) : (players ms).length = 2 * ms.length := by
  induction ms with
  | nil => rfl
  | cons m ms ih =>
    rw [players, List.flatMap_cons, List.length_append, List.length_cons]
    rw [players] at ih
    rw [ih]
    simp only [List.length_cons, List.length_nil]
    omega

omit [DecidableEq ι] in
/-- A round leaves fewer trees. -/
theorem length_pairRound {trees : List ι} (h : 1 < trees.length) :
    (pairRound trees.length [] trees).2.length < trees.length := by
  obtain ⟨left, hleft, hrest, htrees, -⟩ := pairRound_spec [] trees
  have h1 := congrArg List.length hrest
  have h2 := congrArg List.length htrees
  rw [List.length_append, length_players] at h1
  simp only [List.nil_append, List.length_append, List.length_map] at h2
  omega

omit [DecidableEq ι] in
/-- The trees a round leaves are different again. -/
theorem nodup_pairRound {trees : List ι} (hnodup : trees.Nodup) :
    (pairRound trees.length [] trees).2.Nodup := by
  obtain ⟨left, -, hrest, htrees, -⟩ := pairRound_spec [] trees
  rw [htrees]
  refine List.Nodup.sublist ?_ hnodup
  conv_rhs => rw [hrest]
  refine List.Sublist.append ?_ (List.Sublist.refl left)
  rw [List.nil_append]
  generalize (pairRound trees.length [] trees).1 = calls
  induction calls with
  | nil => exact List.Sublist.refl _
  | cons m calls ih => exact (ih.cons m.drop).cons_cons m.keep

/-- The rounds, while there is more than one tree. -/
def rounds (trees : List ι) : List (List (Match ι)) :=
  if 1 < trees.length then
    (pairRound trees.length [] trees).1 :: rounds (pairRound trees.length [] trees).2
  else []
termination_by trees.length
decreasing_by
  rename_i h
  exact length_pairRound h

/-! ## A knockout tournament -/

omit [DecidableEq ι] in
theorem mem_players {ms : List (Match ι)} {i : ι} :
    i ∈ players ms ↔ i ∈ ms.map Match.keep ∨ i ∈ ms.map Match.drop := by
  simp only [players, List.mem_flatMap, List.mem_cons, List.not_mem_nil, or_false, List.mem_map]
  constructor
  · rintro ⟨m, hm, rfl | rfl⟩
    · exact Or.inl ⟨m, hm, rfl⟩
    · exact Or.inr ⟨m, hm, rfl⟩
  · rintro (⟨m, hm, rfl⟩ | ⟨m, hm, rfl⟩)
    · exact ⟨m, hm, Or.inl rfl⟩
    · exact ⟨m, hm, Or.inr rfl⟩

omit [DecidableEq ι] in
/-- Where the players are different, no one keeps and drops. -/
theorem keep_ne_drop {ms : List (Match ι)} (h : (players ms).Nodup) {i : ι}
    (hk : i ∈ ms.map Match.keep) : i ∉ ms.map Match.drop := by
  induction ms with
  | nil => exact (List.not_mem_nil hk).elim
  | cons m ms ih =>
    have hsplit : players (m :: ms) = m.keep :: m.drop :: players ms := rfl
    rw [hsplit] at h
    obtain ⟨hkeep, h⟩ := List.nodup_cons.1 h
    obtain ⟨hdrop, h⟩ := List.nodup_cons.1 h
    rw [List.mem_cons, not_or] at hkeep
    rw [List.map_cons, List.mem_cons, not_or]
    rcases List.mem_cons.1 hk with rfl | hk
    · exact ⟨hkeep.1, fun hd => hkeep.2 (mem_players.2 (Or.inr hd))⟩
    · exact ⟨fun heq => hdrop (heq ▸ mem_players.2 (Or.inl hk)), ih h hk⟩

/-- The trees a round leaves. -/
theorem toFinset_pairRound {trees : List ι} (hnodup : trees.Nodup) :
    (pairRound trees.length [] trees).2.toFinset =
      trees.toFinset \ ((pairRound trees.length [] trees).1.map Match.drop).toFinset := by
  obtain ⟨left, -, hrest, htrees, -⟩ := pairRound_spec [] trees
  generalize pairRound trees.length [] trees = r at hrest htrees
  rw [hrest] at hnodup ⊢
  obtain ⟨hplayers, -, hdisj⟩ := List.nodup_append.1 hnodup
  rw [htrees]
  ext i
  simp only [List.nil_append, List.toFinset_append, Finset.mem_union, List.mem_toFinset,
    Finset.mem_sdiff, mem_players]
  constructor
  · rintro (hk | hl)
    · exact ⟨Or.inl (Or.inl hk), keep_ne_drop hplayers hk⟩
    · exact ⟨Or.inr hl, fun hd => hdisj i (mem_players.2 (Or.inr hd)) i hl rfl⟩
  · rintro ⟨(hk | hd) | hl, hnd⟩
    · exact Or.inl hk
    · exact absurd hd hnd
    · exact Or.inr hl

/-- **The tournament.**  The calls of the rounds, each round in any order, are a
knockout tournament among the trees. -/
theorem knockout_rounds {trees : List ι} (hnodup : trees.Nodup) {order : List (List (Match ι))}
    (h : List.Forall₂ List.Perm order (rounds trees)) : Knockout trees.toFinset order.flatten := by
  induction hn : trees.length using Nat.strong_induction_on generalizing trees order with
  | _ n ih =>
    subst hn
    rw [rounds] at h
    split at h
    · rename_i hlen
      rcases List.forall₂_cons_right_iff.1 h with ⟨ms, order', hperm, horder, rfl⟩
      obtain ⟨left, hleft, hrest, htrees, hlast⟩ := pairRound_spec [] trees
      have hknock := ih _ (length_pairRound hlen) (nodup_pairRound hnodup) horder rfl
      rw [toFinset_pairRound hnodup] at hknock
      have hplayers : (players ms).Perm (players (pairRound trees.length [] trees).1) :=
        hperm.flatMap_right _
      rw [List.flatten_cons]
      by_cases htwo : trees.length = 2
      · -- two trees: the one call is the last one
        obtain ⟨a, b, rfl⟩ := List.length_eq_two.1 htwo
        have hround : pairRound (([a, b] : List ι).length : ℤ) [] [a, b] =
            ([⟨true, a, b⟩], [a]) := rfl
        rw [hround] at hperm horder
        rw [List.perm_singleton.1 hperm]
        rw [rounds, if_neg (by simp)] at horder
        rw [List.forall₂_nil_right_iff.1 horder]
        have hab : a ≠ b := by
          rintro rfl
          simp at hnodup
        have hset : ([a, b] : List ι).toFinset = {a, b} := by simp
        rw [hset]
        exact Knockout.final (m := ⟨true, a, b⟩) hab rfl
      · refine Knockout.append_matches ?_ ?_ ?_ ?_
        · refine hplayers.nodup_iff.2 ?_
          rw [hrest] at hnodup
          exact (List.nodup_append.1 hnodup).1
        · intro i hi
          rw [List.mem_toFinset, hrest]
          exact List.mem_append_left _ (hplayers.mem_iff.1 hi)
        · exact fun m hm => hlast (by rw [List.nil_append]; omega) m (hperm.mem_iff.1 hm)
        · rwa [List.toFinset_eq_of_perm _ _ (hperm.map Match.drop)]
    · rename_i hlen
      rw [List.forall₂_nil_right_iff.1 h]
      exact Knockout.done ((List.toFinset_card_le trees).trans (by omega))

/-! ## Every two threads are compared once -/

omit [DecidableEq ι] in
/-- The calls of a round share no tree. -/
theorem nodup_players_rounds {trees : List ι} (hnodup : trees.Nodup) :
    ∀ calls ∈ rounds trees, (players calls).Nodup := by
  induction hn : trees.length using Nat.strong_induction_on generalizing trees with
  | _ n ih =>
    subst hn
    intro calls hcalls
    rw [rounds] at hcalls
    split at hcalls
    · rename_i hlen
      rcases List.mem_cons.1 hcalls with rfl | hcalls
      · obtain ⟨left, -, hrest, -, -⟩ := pairRound_spec [] trees
        rw [hrest] at hnodup
        exact (List.nodup_append.1 hnodup).1
      · exact ih _ (length_pairRound hlen) (nodup_pairRound hnodup) rfl calls hcalls
    · exact (List.not_mem_nil hcalls).elim

omit [DecidableEq ι] in
/-- A round among more than two trees leaves more than one. -/
theorem one_lt_length_pairRound {trees : List ι} (h : 2 < trees.length) :
    1 < (pairRound trees.length [] trees).2.length := by
  obtain ⟨left, hleft, hrest, htrees, -⟩ := pairRound_spec [] trees
  have h1 := congrArg List.length hrest
  have h2 := congrArg List.length htrees
  rw [List.length_append, length_players] at h1
  simp only [List.nil_append, List.length_append, List.length_map] at h2
  omega

omit [DecidableEq ι] in
/-- The last call is marked as the last, and no other call is. -/
theorem last_rounds {trees : List ι} (hlen : 1 < trees.length) {order : List (List (Match ι))}
    (h : List.Forall₂ List.Perm order (rounds trees)) :
    ∃ calls m, order.flatten = calls ++ [m] ∧ m.last = true ∧ ∀ c ∈ calls, c.last = false := by
  induction hn : trees.length using Nat.strong_induction_on generalizing trees order with
  | _ n ih =>
    subst hn
    rw [rounds, if_pos hlen] at h
    rcases List.forall₂_cons_right_iff.1 h with ⟨ms, order', hperm, horder, rfl⟩
    rw [List.flatten_cons]
    by_cases htwo : trees.length = 2
    · obtain ⟨a, b, rfl⟩ := List.length_eq_two.1 htwo
      have hround : pairRound (([a, b] : List ι).length : ℤ) [] [a, b] =
          ([⟨true, a, b⟩], [a]) := rfl
      rw [hround] at hperm horder
      rw [rounds, if_neg (by simp)] at horder
      rw [List.perm_singleton.1 hperm, List.forall₂_nil_right_iff.1 horder]
      exact ⟨[], ⟨true, a, b⟩, rfl, rfl, fun c hc => (List.not_mem_nil hc).elim⟩
    · have hmore : 2 < trees.length := by omega
      obtain ⟨-, -, -, -, hfirst⟩ := pairRound_spec [] trees
      obtain ⟨calls, m, hcalls, hm, hrest⟩ :=
        ih _ (length_pairRound hlen) (one_lt_length_pairRound hmore) horder rfl
      refine ⟨ms ++ calls, m, by rw [hcalls, List.append_assoc], hm, ?_⟩
      intro c hc
      rcases List.mem_append.1 hc with hc | hc
      · exact hfirst (by rwa [List.nil_append]) c (hperm.mem_iff.1 hc)
      · exact hrest c hc

/-- Every thread has its own tree, and none has been compared. -/
def untouched (ι : Type) : Standing ι ι := ⟨fun i => [i], []⟩

omit [DecidableEq ι] in
theorem separate_untouched (live : Finset ι) : (untouched ι).Separate live where
  nodup _ _ := List.nodup_singleton _
  disjoint _ _ _ _ hij := List.disjoint_singleton.2 fun h => hij (List.mem_singleton.1 h).symm
  nodup_met := List.nodup_nil
  together _ _ h := (List.not_mem_nil h).elim

theorem exists_of_forall₂ {α β : Type} {R : α → β → Prop} {as : List α} {bs : List β}
    (h : List.Forall₂ R as bs) {a : α} (ha : a ∈ as) : ∃ b ∈ bs, R a b := by
  induction h with
  | nil => exact (List.not_mem_nil ha).elim
  | cons hab _ ih =>
    rcases List.mem_cons.1 ha with rfl | ha
    · exact ⟨_, List.mem_cons_self, hab⟩
    · obtain ⟨b, hb, hrel⟩ := ih ha
      exact ⟨b, List.mem_cons_of_mem _ hb, hrel⟩

/-- **Every two threads are compared once.**  For any number of threads and any order
of the calls within the rounds: two different threads are compared exactly once, and
no thread with itself; the calls of a round share no tree; and a call is marked as
the last exactly if no other comes after it. -/
theorem compared_once (n : ℕ) (order : List (List (Match ℕ)))
    (h : List.Forall₂ List.Perm order (rounds (List.range n))) :
    (∀ i j, (order.flatten.foldl Standing.play (untouched ℕ)).met.count s(i, j) =
        if i < n ∧ j < n ∧ i ≠ j then 1 else 0) ∧
      (∀ calls ∈ order, (players calls).Nodup) ∧
      ∀ k (hk : k < order.flatten.length),
        order.flatten[k].last = true ↔ k + 1 = order.flatten.length := by
  have hknock := knockout_rounds List.nodup_range h
  have hsep := separate_untouched (List.range n).toFinset
  refine ⟨?_, ?_, ?_⟩
  · intro i j
    have hmet : s(i, j) ∈ (order.flatten.foldl Standing.play (untouched ℕ)).met ↔ _ :=
      hknock.met_iff hsep
    rw [(hknock.nodup_met hsep).count]
    refine if_congr (hmet.trans ?_) rfl rfl
    simp [untouched]
  · intro calls hcalls
    obtain ⟨round, hround, hperm⟩ := exists_of_forall₂ h hcalls
    exact (hperm.flatMap_right _).nodup_iff.2 (nodup_players_rounds List.nodup_range _ hround)
  · intro k hk
    by_cases hlen : 1 < (List.range n).length
    · obtain ⟨calls, m, hcalls, hm, hrest⟩ := last_rounds hlen h
      simp only [hcalls, List.length_append, List.length_singleton] at hk ⊢
      rw [List.getElem_append]
      split
      · rename_i hlt
        rw [hrest _ (List.getElem_mem hlt)]
        simp only [Bool.false_eq_true, false_iff]
        omega
      · simp only [List.getElem_singleton, hm, true_iff]
        omega
    · rw [rounds, if_neg hlen] at h
      rw [List.forall₂_nil_right_iff.1 h] at hk
      exact absurd hk (Nat.not_lt_zero k)

/-- The calls for three threads. -/
def threeThreads : List (List (Match ℕ)) := [[⟨false, 0, 1⟩], [⟨true, 0, 2⟩]]

theorem rounds_threeThreads : rounds (List.range 3) = threeThreads := by
  have hrange : List.range 3 = [0, 1, 2] := rfl
  have hfirst : pairRound (([0, 1, 2] : List ℕ).length : ℤ) [] [0, 1, 2] =
      ([⟨false, 0, 1⟩], [0, 2]) := rfl
  have hsecond : pairRound (([0, 2] : List ℕ).length : ℤ) [] [0, 2] = ([⟨true, 0, 2⟩], [0]) := rfl
  rw [hrange, rounds, if_pos (by decide), hfirst, rounds, if_pos (by decide), hsecond, rounds,
    if_neg (by decide)]
  rfl

theorem compared_once_threeThreads :
    (∀ i j, (threeThreads.flatten.foldl Standing.play (untouched ℕ)).met.count s(i, j) =
        if i < 3 ∧ j < 3 ∧ i ≠ j then 1 else 0) ∧
      (∀ calls ∈ threeThreads, (players calls).Nodup) ∧
      ∀ k (hk : k < threeThreads.flatten.length),
        threeThreads.flatten[k].last = true ↔ k + 1 = threeThreads.flatten.length := by
  refine compared_once 3 threeThreads ?_
  rw [rounds_threeThreads]
  exact List.forall₂_same.2 fun _ _ => List.Perm.refl _

end Tools
end Sword
