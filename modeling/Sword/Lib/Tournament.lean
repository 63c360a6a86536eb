import Sword.Lib.Run

/-!
# Knockout tournaments

Players are paired until one is left.  In a match one player takes over the team of
the other, who is out; only the last match need not be followed by a take-over.
Whatever the order of the matches, every two members of different teams have met.

* `Match`, `Knockout` — matches, and the sequences of them that end with one player.
* `Match.heir` — whose team a player's team is part of after a match.
* `Rules` — what a machine does in a match, as far as teams are concerned.
* `Knockout.rule` — in a knockout, every two have met in the end.
* `Knockout.append_matches` — matches among different players can be played in any
  order.
* `Standing`, `Knockout.met_iff`, `Knockout.nodup_met` — where every member of one team
  meets every member of the other in a match, members of different teams meet exactly
  once.
-/

namespace Sword
namespace Tournament

open Run

/-- A match: `keep` takes over the team of `drop`, unless it is the last one. -/
structure Match (ι : Type) where
  last : Bool
  keep : ι
  drop : ι
  deriving DecidableEq, Repr

variable {ι κ σ : Type} [DecidableEq ι]

/-- A sequence of matches among the players in the game, until one is left; the last
match, and no other, is marked. -/
inductive Knockout : Finset ι → List (Match ι) → Prop
  | done {live : Finset ι} (h : live.card ≤ 1) : Knockout live []
  | final {m : Match ι} (hne : m.keep ≠ m.drop) (hlast : m.last = true) :
      Knockout {m.keep, m.drop} [m]
  | next {live : Finset ι} {m : Match ι} {ms : List (Match ι)} (hkeep : m.keep ∈ live)
      (hdrop : m.drop ∈ live) (hne : m.keep ≠ m.drop) (hlast : m.last = false)
      (h : Knockout (live.erase m.drop) ms) : Knockout live (m :: ms)

/-- The player whose team those of player `i` are in after the match. -/
def Match.heir (m : Match ι) (i : ι) : ι := if i = m.drop then m.keep else i

section Heir

variable {m : Match ι} {live : Finset ι} {i j : ι}

theorem Match.heir_drop : m.heir m.drop = m.keep := if_pos rfl

theorem Match.heir_of_ne (h : i ≠ m.drop) : m.heir i = i := if_neg h

theorem Match.heir_mem (hkeep : m.keep ∈ live) (hne : m.keep ≠ m.drop) (hi : i ∈ live) :
    m.heir i ∈ live.erase m.drop := by
  by_cases hid : i = m.drop
  · rw [hid, m.heir_drop]
    exact Finset.mem_erase.2 ⟨hne, hkeep⟩
  · rw [m.heir_of_ne hid]
    exact Finset.mem_erase.2 ⟨hid, hi⟩

theorem Match.mem_of_heir (hdrop : m.drop ∈ live) (h : m.heir i ∈ live.erase m.drop) :
    i ∈ live := by
  by_cases hid : i = m.drop
  · exact hid ▸ hdrop
  · exact Finset.mem_of_mem_erase (m.heir_of_ne hid ▸ h)

/-- Only the two players of the match come into one team. -/
theorem Match.eq_of_heir_eq (hij : i ≠ j) (h : m.heir i = m.heir j) :
    i = m.keep ∧ j = m.drop ∨ i = m.drop ∧ j = m.keep := by
  by_cases hid : i = m.drop
  · have hjd : j ≠ m.drop := fun hjd => hij (hid.trans hjd.symm)
    rw [hid, m.heir_drop, m.heir_of_ne hjd] at h
    exact Or.inr ⟨hid, h.symm⟩
  · rw [m.heir_of_ne hid] at h
    by_cases hjd : j = m.drop
    · rw [hjd, m.heir_drop] at h
      exact Or.inl ⟨h, hjd⟩
    · rw [m.heir_of_ne hjd] at h
      exact absurd h hij

end Heir

/-- A machine that plays matches: `Own s i A` says that in state `s` the player `i`
has the team `A`, `Seen s x y` that `x` and `y` have met. -/
structure Rules (stepM : σ → Match ι → Option σ) (cond : σ → Match ι → Prop) (Inv : σ → Prop)
    (Own : σ → ι → Set κ → Prop) (Seen : σ → κ → κ → Prop) : Prop where
  play : ∀ s m A B, m.keep ≠ m.drop → Disjoint A B → Inv s → Own s m.keep A → Own s m.drop B →
    cond s m → ∃ s', stepM s m = some s' ∧ Inv s' ∧ (∀ x y, Seen s x y → Seen s' x y) ∧
      (∀ x ∈ A, ∀ y ∈ B, Seen s' x y ∧ Seen s' y x) ∧
      (m.last = false → Own s' m.keep (A ∪ B) ∧
        ∀ i C, i ≠ m.keep → i ≠ m.drop → Own s i C → Own s' i C)

variable {stepM : σ → Match ι → Option σ} {cond : σ → Match ι → Prop} {Inv : σ → Prop}
  {Own : σ → ι → Set κ → Prop} {Seen : σ → κ → κ → Prop}

/-- The teams after a match: `keep` has both. -/
def Match.merged (m : Match ι) (T : ι → Set κ) : ι → Set κ :=
  Function.update T m.keep (T m.keep ∪ T m.drop)

section Merged

variable {m : Match ι} {live : Finset ι} {T : ι → Set κ}

theorem Match.merged_keep : m.merged T m.keep = T m.keep ∪ T m.drop := Function.update_self ..

theorem Match.merged_of_ne {i : ι} (h : i ≠ m.keep) : m.merged T i = T i :=
  Function.update_of_ne h _ _

theorem Match.subset_merged_heir (i : ι) : T i ⊆ m.merged T (m.heir i) := by
  by_cases hid : i = m.drop
  · rw [hid, m.heir_drop, m.merged_keep]
    exact Set.subset_union_right
  · rw [m.heir_of_ne hid]
    by_cases hik : i = m.keep
    · rw [hik, m.merged_keep]
      exact Set.subset_union_left
    · rw [m.merged_of_ne hik]

theorem Match.disjoint_merged (hkeep : m.keep ∈ live) (hdrop : m.drop ∈ live)
    (hdisj : ∀ i ∈ live, ∀ j ∈ live, i ≠ j → Disjoint (T i) (T j)) :
    ∀ i ∈ live.erase m.drop, ∀ j ∈ live.erase m.drop, i ≠ j →
      Disjoint (m.merged T i) (m.merged T j) := by
  have hother : ∀ i ∈ live.erase m.drop, i ≠ m.keep →
      Disjoint (m.merged T i) (m.merged T m.keep) := by
    intro i hi hik
    obtain ⟨hid, hi⟩ := Finset.mem_erase.1 hi
    rw [m.merged_of_ne hik, m.merged_keep]
    exact Set.disjoint_union_right.2 ⟨hdisj i hi _ hkeep hik, hdisj i hi _ hdrop hid⟩
  intro i hi j hj hij
  by_cases hik : i = m.keep
  · subst hik
    exact (hother j hj (Ne.symm hij)).symm
  · by_cases hjk : j = m.keep
    · subst hjk
      exact hother i hi hij
    · rw [m.merged_of_ne hik, m.merged_of_ne hjk]
      exact hdisj i (Finset.mem_of_mem_erase hi) j (Finset.mem_of_mem_erase hj) hij

end Merged

/-- **Every two meet.**  A guarded run through a knockout does not fail, keeps the
invariant, and in the end every two members of different teams have met. -/
theorem Knockout.rule {live : Finset ι} {ms : List (Match ι)} (h : Knockout live ms)
    (hr : Rules stepM cond Inv Own Seen) {T : ι → Set κ} {s : σ} (hinv : Inv s)
    (hown : ∀ i ∈ live, Own s i (T i))
    (hdisj : ∀ i ∈ live, ∀ j ∈ live, i ≠ j → Disjoint (T i) (T j))
    (hg : GuardedM stepM cond s ms) :
    ∃ s', ms.foldlM stepM s = some s' ∧ Inv s' ∧ (∀ x y, Seen s x y → Seen s' x y) ∧
      ∀ i ∈ live, ∀ j ∈ live, i ≠ j → ∀ x ∈ T i, ∀ y ∈ T j, Seen s' x y := by
  induction h generalizing s T with
  | done hcard =>
    refine ⟨s, rfl, hinv, fun _ _ h => h, ?_⟩
    intro i hi j hj hne
    exact absurd (Finset.card_le_one.1 hcard i hi j hj) hne
  | @final m hne hlast =>
    have hk : m.keep ∈ ({m.keep, m.drop} : Finset ι) := by simp
    have hd : m.drop ∈ ({m.keep, m.drop} : Finset ι) := by simp
    obtain ⟨s', hstep, hinv', hmono, hmeet, -⟩ := hr.play s m (T m.keep) (T m.drop) hne
      (hdisj _ hk _ hd hne) hinv (hown _ hk) (hown _ hd) hg.1
    refine ⟨s', ?_, hinv', hmono, ?_⟩
    · rw [List.foldlM_cons, hstep]
      rfl
    · intro i hi j hj hij x hx y hy
      rw [Finset.mem_insert, Finset.mem_singleton] at hi hj
      rcases hi with rfl | rfl <;> rcases hj with rfl | rfl
      · exact absurd rfl hij
      · exact (hmeet x hx y hy).1
      · exact (hmeet y hy x hx).2
      · exact absurd rfl hij
  | @next live m ms hkeep hdrop hne hlast _ ih =>
    obtain ⟨s', hstep, hinv', hmono, hmeet, hnext⟩ := hr.play s m (T m.keep) (T m.drop) hne
      (hdisj _ hkeep _ hdrop hne) hinv (hown _ hkeep) (hown _ hdrop) hg.1
    obtain ⟨hkeep', hothers⟩ := hnext hlast
    have hown' : ∀ i ∈ live.erase m.drop, Own s' i (m.merged T i) := by
      intro i hi
      by_cases hik : i = m.keep
      · rw [hik, m.merged_keep]
        exact hkeep'
      · obtain ⟨hid, hi⟩ := Finset.mem_erase.1 hi
        rw [m.merged_of_ne hik]
        exact hothers i _ hik hid (hown i hi)
    obtain ⟨s'', hrun, hinv'', hmono', hall⟩ :=
      ih hinv' hown' (Match.disjoint_merged hkeep hdrop hdisj) (hg.2 s' hstep)
    refine ⟨s'', ?_, hinv'', fun x y h => hmono' x y (hmono x y h), ?_⟩
    · rw [List.foldlM_cons, hstep]
      exact hrun
    · -- two players who come into one team meet in this match, the others later
      intro i hi j hj hij x hx y hy
      by_cases hheir : m.heir i = m.heir j
      · rcases m.eq_of_heir_eq hij hheir with ⟨rfl, rfl⟩ | ⟨rfl, rfl⟩
        · exact hmono' x y (hmeet x hx y hy).1
        · exact hmono' x y (hmeet y hy x hx).2
      · exact hall _ (m.heir_mem hkeep hne hi) _ (m.heir_mem hkeep hne hj) hheir
          x (m.subset_merged_heir i hx) y (m.subset_merged_heir j hy)

/-- The players of a list of matches. -/
def players (ms : List (Match ι)) : List ι := ms.flatMap fun m => [m.keep, m.drop]

/-- Matches among different players, none of them the last, come before a knockout
among those who are left. -/
theorem Knockout.append_matches {live : Finset ι} {ms rest : List (Match ι)}
    (hnodup : (players ms).Nodup) (hlive : ∀ i ∈ players ms, i ∈ live)
    (hlast : ∀ m ∈ ms, m.last = false)
    (h : Knockout (live \ (ms.map Match.drop).toFinset) rest) : Knockout live (ms ++ rest) := by
  induction ms generalizing live with
  | nil => simpa using h
  | cons m ms ih =>
    have hsplit : players (m :: ms) = m.keep :: m.drop :: players ms := rfl
    rw [hsplit] at hnodup hlive
    obtain ⟨hk, hnodup⟩ := List.nodup_cons.1 hnodup
    obtain ⟨hd, hnodup⟩ := List.nodup_cons.1 hnodup
    refine Knockout.next (hlive _ (by simp)) (hlive _ (by simp)) ?_ (hlast m List.mem_cons_self)
      (ih hnodup ?_ (fun m' hm' => hlast m' (List.mem_cons_of_mem _ hm')) ?_)
    · exact fun heq => hk (heq ▸ List.mem_cons_self)
    · intro i hi
      refine Finset.mem_erase.2 ⟨fun heq => hd (heq ▸ hi), hlive i ?_⟩
      exact List.mem_cons_of_mem _ (List.mem_cons_of_mem _ hi)
    · rwa [List.map_cons, List.toFinset_cons, Finset.sdiff_insert, ← Finset.erase_sdiff_comm] at h

/-! ## Who has met whom -/

/-- The teams, and the pairs that have met, each as often as it has. -/
structure Standing (ι κ : Type) where
  team : ι → List κ
  met : List (Sym2 κ)

/-- A match: every member of one team meets every member of the other; then, unless it
is the last match, `keep` takes over the team of `drop`. -/
def Standing.play (s : Standing ι κ) (m : Match ι) : Standing ι κ where
  team := if m.last then s.team
    else Function.update (Function.update s.team m.keep (s.team m.keep ++ s.team m.drop)) m.drop []
  met := s.met ++ (s.team m.keep ×ˢ s.team m.drop).map fun p => s(p.1, p.2)

/-- The teams of the players in the game have no common member, and whoever has met
is in one team now. -/
structure Standing.Separate (s : Standing ι κ) (live : Finset ι) : Prop where
  nodup : ∀ i ∈ live, (s.team i).Nodup
  disjoint : ∀ i ∈ live, ∀ j ∈ live, i ≠ j → (s.team i).Disjoint (s.team j)
  nodup_met : s.met.Nodup
  together : ∀ x y, s(x, y) ∈ s.met → ∃ i ∈ live, x ∈ s.team i ∧ y ∈ s.team i

variable {s : Standing ι κ} {live : Finset ι} {m : Match ι}

theorem Standing.mem_met_play {x y : κ} : s(x, y) ∈ (s.play m).met ↔ s(x, y) ∈ s.met ∨
    x ∈ s.team m.keep ∧ y ∈ s.team m.drop ∨ y ∈ s.team m.keep ∧ x ∈ s.team m.drop := by
  simp only [Standing.play, List.mem_append, List.mem_map, Prod.exists, Sym2.eq_iff,
    List.mem_product]
  constructor
  · rintro (h | ⟨a, b, ⟨ha, hb⟩, ⟨rfl, rfl⟩ | ⟨rfl, rfl⟩⟩)
    · exact Or.inl h
    · exact Or.inr (Or.inl ⟨ha, hb⟩)
    · exact Or.inr (Or.inr ⟨ha, hb⟩)
  · rintro (h | ⟨ha, hb⟩ | ⟨ha, hb⟩)
    · exact Or.inl h
    · exact Or.inr ⟨x, y, ⟨ha, hb⟩, Or.inl ⟨rfl, rfl⟩⟩
    · exact Or.inr ⟨y, x, ⟨ha, hb⟩, Or.inr ⟨rfl, rfl⟩⟩

/-- The pairs that meet in a match are different, and have not met before. -/
theorem Standing.Separate.nodup_met_play (h : s.Separate live) (hkeep : m.keep ∈ live)
    (hdrop : m.drop ∈ live) (hne : m.keep ≠ m.drop) : (s.play m).met.Nodup := by
  have hdisj := h.disjoint _ hkeep _ hdrop hne
  refine List.nodup_append.2 ⟨h.nodup_met, ?_, ?_⟩
  · refine List.Nodup.map_on ?_ ((h.nodup _ hkeep).product (h.nodup _ hdrop))
    rintro ⟨a, b⟩ hab ⟨c, d⟩ hcd heq
    rw [List.mem_product] at hab hcd
    rcases Sym2.eq_iff.1 heq with ⟨rfl, rfl⟩ | ⟨rfl, rfl⟩
    · rfl
    · exact absurd hcd.2 (hdisj hab.1)
  · rintro p hp q hq rfl
    obtain ⟨⟨a, b⟩, hab, rfl⟩ := List.mem_map.1 hq
    rw [List.mem_product] at hab
    obtain ⟨i, hi, ha, hb⟩ := h.together a b hp
    by_cases hik : i = m.keep
    · exact hdisj (hik ▸ hb) hab.2
    · exact h.disjoint i hi _ hkeep hik ha hab.1

theorem Standing.team_play_keep (hne : m.keep ≠ m.drop) (hlast : m.last = false) :
    (s.play m).team m.keep = s.team m.keep ++ s.team m.drop := by
  simp [Standing.play, hlast, Function.update_of_ne hne]

theorem Standing.team_play_of_ne (hlast : m.last = false) {k : ι} (hk : k ≠ m.keep)
    (hd : k ≠ m.drop) : (s.play m).team k = s.team k := by
  simp [Standing.play, hlast, Function.update_of_ne hk, Function.update_of_ne hd]

/-- The team of a player who stays in the game is made up of those of the players whose
heir they are. -/
theorem Standing.mem_team_play (hne : m.keep ≠ m.drop) (hlast : m.last = false) {k : ι}
    (hk : k ≠ m.drop) {z : κ} :
    z ∈ (s.play m).team k ↔ ∃ i, m.heir i = k ∧ z ∈ s.team i := by
  by_cases hkeep : k = m.keep
  · rw [hkeep, Standing.team_play_keep hne hlast, List.mem_append]
    constructor
    · rintro (hz | hz)
      · exact ⟨m.keep, m.heir_of_ne hne, hz⟩
      · exact ⟨m.drop, m.heir_drop, hz⟩
    · rintro ⟨i, hi, hz⟩
      by_cases hid : i = m.drop
      · exact Or.inr (hid ▸ hz)
      · rw [m.heir_of_ne hid] at hi
        exact Or.inl (hi ▸ hz)
  · rw [Standing.team_play_of_ne hlast hkeep hk]
    constructor
    · exact fun hz => ⟨k, m.heir_of_ne hk, hz⟩
    · rintro ⟨i, hi, hz⟩
      by_cases hid : i = m.drop
      · rw [hid, m.heir_drop] at hi
        exact absurd hi.symm hkeep
      · rw [m.heir_of_ne hid] at hi
        exact hi ▸ hz

/-- After a match that is not the last one the teams are separate again. -/
theorem Standing.Separate.play (h : s.Separate live) (hkeep : m.keep ∈ live)
    (hdrop : m.drop ∈ live) (hne : m.keep ≠ m.drop) (hlast : m.last = false) :
    (s.play m).Separate (live.erase m.drop) where
  nodup := by
    intro k hk
    by_cases hkk : k = m.keep
    · rw [hkk, Standing.team_play_keep hne hlast]
      exact List.Nodup.append (h.nodup _ hkeep) (h.nodup _ hdrop) (h.disjoint _ hkeep _ hdrop hne)
    · rw [Standing.team_play_of_ne hlast hkk (Finset.ne_of_mem_erase hk)]
      exact h.nodup k (Finset.mem_of_mem_erase hk)
  disjoint := by
    intro k hk l hl hkl z hz hz'
    rw [Standing.mem_team_play hne hlast (Finset.ne_of_mem_erase hk)] at hz
    rw [Standing.mem_team_play hne hlast (Finset.ne_of_mem_erase hl)] at hz'
    obtain ⟨i, rfl, hz⟩ := hz
    obtain ⟨j, rfl, hz'⟩ := hz'
    exact h.disjoint i (m.mem_of_heir hdrop hk) j (m.mem_of_heir hdrop hl)
      (fun hij => hkl (congrArg m.heir hij)) hz hz'
  nodup_met := h.nodup_met_play hkeep hdrop hne
  together := by
    have hteam : ∀ {i z}, i ∈ live → z ∈ s.team i → z ∈ (s.play m).team (m.heir i) :=
      fun {i z} hi hz => (Standing.mem_team_play hne hlast
        (Finset.ne_of_mem_erase (m.heir_mem hkeep hne hi))).2 ⟨i, rfl, hz⟩
    have hboth : m.heir m.drop = m.heir m.keep := m.heir_drop.trans (m.heir_of_ne hne).symm
    intro x y hxy
    rcases Standing.mem_met_play.1 hxy with hold | ⟨hx, hy⟩ | ⟨hy, hx⟩
    · obtain ⟨i, hi, hx, hy⟩ := h.together x y hold
      exact ⟨m.heir i, m.heir_mem hkeep hne hi, hteam hi hx, hteam hi hy⟩
    · exact ⟨m.heir m.keep, m.heir_mem hkeep hne hkeep, hteam hkeep hx, hboth ▸ hteam hdrop hy⟩
    · exact ⟨m.heir m.keep, m.heir_mem hkeep hne hkeep, hboth ▸ hteam hdrop hx, hteam hkeep hy⟩

/-- Members of different teams are in different ones after the match as well, or they are
those who meet in it. -/
theorem Standing.apart_iff_play (hkeep : m.keep ∈ live) (hdrop : m.drop ∈ live)
    (hne : m.keep ≠ m.drop) (hlast : m.last = false) {x y : κ} :
    (∃ i ∈ live, ∃ j ∈ live, i ≠ j ∧ x ∈ s.team i ∧ y ∈ s.team j) ↔
      (x ∈ s.team m.keep ∧ y ∈ s.team m.drop ∨ y ∈ s.team m.keep ∧ x ∈ s.team m.drop) ∨
        ∃ k ∈ live.erase m.drop, ∃ l ∈ live.erase m.drop,
          k ≠ l ∧ x ∈ (s.play m).team k ∧ y ∈ (s.play m).team l := by
  constructor
  · rintro ⟨i, hi, j, hj, hij, hx, hy⟩
    by_cases hheir : m.heir i = m.heir j
    · rcases m.eq_of_heir_eq hij hheir with ⟨rfl, rfl⟩ | ⟨rfl, rfl⟩
      · exact Or.inl (Or.inl ⟨hx, hy⟩)
      · exact Or.inl (Or.inr ⟨hy, hx⟩)
    · have hi' := m.heir_mem hkeep hne hi
      have hj' := m.heir_mem hkeep hne hj
      refine Or.inr ⟨m.heir i, hi', m.heir j, hj', hheir, ?_, ?_⟩
      · exact (Standing.mem_team_play hne hlast (Finset.ne_of_mem_erase hi')).2 ⟨i, rfl, hx⟩
      · exact (Standing.mem_team_play hne hlast (Finset.ne_of_mem_erase hj')).2 ⟨j, rfl, hy⟩
  · rintro ((⟨hx, hy⟩ | ⟨hy, hx⟩) | ⟨k, hk, l, hl, hkl, hx, hy⟩)
    · exact ⟨m.keep, hkeep, m.drop, hdrop, hne, hx, hy⟩
    · exact ⟨m.drop, hdrop, m.keep, hkeep, hne.symm, hx, hy⟩
    · rw [Standing.mem_team_play hne hlast (Finset.ne_of_mem_erase hk)] at hx
      rw [Standing.mem_team_play hne hlast (Finset.ne_of_mem_erase hl)] at hy
      obtain ⟨i, rfl, hx⟩ := hx
      obtain ⟨j, rfl, hy⟩ := hy
      exact ⟨i, m.mem_of_heir hdrop hk, j, m.mem_of_heir hdrop hl,
        fun hij => hkl (congrArg m.heir hij), hx, hy⟩

/-- In a knockout no pair meets twice. -/
theorem Knockout.nodup_met {ms : List (Match ι)} (h : Knockout live ms) (hs : s.Separate live) :
    (ms.foldl Standing.play s).met.Nodup := by
  induction h generalizing s with
  | done _ => exact hs.nodup_met
  | @final m hne _ => exact hs.nodup_met_play (by simp) (by simp) hne
  | next hkeep hdrop hne hlast _ ih => exact ih (hs.play hkeep hdrop hne hlast)

/-- In the end exactly the members of different teams have met, and whoever had met
before. -/
theorem Knockout.met_iff {ms : List (Match ι)} (h : Knockout live ms) (hs : s.Separate live)
    {x y : κ} : s(x, y) ∈ (ms.foldl Standing.play s).met ↔ s(x, y) ∈ s.met ∨
      ∃ i ∈ live, ∃ j ∈ live, i ≠ j ∧ x ∈ s.team i ∧ y ∈ s.team j := by
  induction h generalizing s with
  | @done live hcard =>
    refine ⟨Or.inl, ?_⟩
    rintro (h | ⟨i, hi, j, hj, hij, -⟩)
    · exact h
    · exact absurd (Finset.card_le_one.1 hcard i hi j hj) hij
  | @final m hne _ =>
    rw [List.foldl_cons, List.foldl_nil, Standing.mem_met_play]
    refine or_congr Iff.rfl ⟨?_, ?_⟩
    · rintro (⟨hx, hy⟩ | ⟨hy, hx⟩)
      · exact ⟨m.keep, by simp, m.drop, by simp, hne, hx, hy⟩
      · exact ⟨m.drop, by simp, m.keep, by simp, hne.symm, hx, hy⟩
    · rintro ⟨i, hi, j, hj, hij, hx, hy⟩
      rw [Finset.mem_insert, Finset.mem_singleton] at hi hj
      rcases hi with rfl | rfl <;> rcases hj with rfl | rfl
      · exact absurd rfl hij
      · exact Or.inl ⟨hx, hy⟩
      · exact Or.inr ⟨hy, hx⟩
      · exact absurd rfl hij
  | next hkeep hdrop hne hlast _ ih =>
    rw [List.foldl_cons, ih (hs.play hkeep hdrop hne hlast), Standing.mem_met_play, or_assoc,
      Standing.apart_iff_play hkeep hdrop hne hlast]

end Tournament
end Sword
