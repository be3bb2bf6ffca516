import LuaServer.JpsRootedLinks
import LuaServer.JpsSearchTermination

/-!
# Termination of the jump point search

The open-list loop always ends.  The backward walk of `genret` ends when the
links are acyclic, and in a run that loses no flag the only way to a cycle is
a link from the start itself.  `addjp` and the two guarded assignments to
`pre_` test only whether a position has a predecessor, which the start never
has, so a route that comes back to the start links it.
-/

namespace LuaServer

namespace Jps

open GridCell MachineIntegers PredecessorLinks FueledLoops

/-- The next small step offers a predecessor to the start. -/
def OffersStart (q : Query) (config : Config) : Prop :=
  ∃ entry ∈ offers q config, entry.1 = q.start_

/-- `find` ends, on links without a cycle that lead from the popped end to a
start without predecessor. -/
structure Terminates (q : Query) : Prop where
  returns : ∃ ret, Finds q ret
  acyclic : ∀ config, Reaches q config → Acyclic config.search.pre
  startUnlinked : ∀ config, Reaches q config → config.search.pre q.start_ = none
  endRooted : ∀ config links, Reaches q config → tick q config = .inr (some links) →
    Rooted links q.start_ q.end_

section Runs

variable {q : Query} {config after : Config}

/-- A small step links the start exactly if it offers it a predecessor. -/
theorem start_unlinked_tick_iff (endFree : q.grid.Free q.end_) (sound : Sound q config)
    (stepped : tick q config = .inl after)
    (unlinked : config.search.pre q.start_ = none) :
    after.search.pre q.start_ = none ↔ ¬ OffersStart q config := by
  by_cases popping : config.phase = .pop
  · obtain ⟨search, phase⟩ := config
    simp only at popping
    subst phase
    have idle : ¬ OffersStart q ⟨search, .pop⟩ := by simp [OffersStart, offers]
    rcases tick_pop q search with ⟨-, exits⟩ | ⟨st, openlist, -,
      ⟨-, continues⟩ | ⟨-, exits⟩ | ⟨-, continues⟩⟩
    · simp [exits] at stepped
    · obtain rfl := Sum.inl.inj (continues.symm.trans stepped)
      exact iff_of_true unlinked idle
    · simp [exits] at stepped
    · obtain rfl := Sum.inl.inj (continues.symm.trans stepped)
      exact iff_of_true unlinked idle
  · obtain ⟨next, ticked, offered, -⟩ := ticks_of_turns endFree sound.turns popping
    obtain rfl := Sum.inl.inj (ticked.symm.trans stepped)
    rw [offered.pre, foldl_insertLink_eq_none]
    constructor
    · rintro ⟨-, others⟩ ⟨entry, member, same⟩
      exact others entry member same.symm
    · intro notOffered
      exact ⟨unlinked, fun entry member same => notOffered ⟨entry, member, same.symm⟩⟩

/-- The start stays without predecessor as long as it is offered none. -/
theorem Reaches.start_unlinked
    (notOffered : ∀ config, Reaches q config → ¬ OffersStart q config)
    (reaches : Reaches q config) : config.search.pre q.start_ = none := by
  obtain ⟨searches, run⟩ := reaches
  induction run with
  | refl => rfl
  | tail run stepped ih =>
      have before : Reaches q _ := ⟨searches, run⟩
      exact (start_unlinked_tick_iff searches.endFree before.sound stepped ih).mpr
        (notOffered _ before)

theorem Rooting.acyclic (rooting : Rooting q config)
    (unlinked : config.search.pre q.start_ = none) : Acyclic config.search.pre := by
  apply acyclic_of_backedBy _ rooting.backed
  obtain ⟨search, phase⟩ := config
  intro root isRoot
  cases phase with
  | vertical st d s r1 dirs =>
      rcases isRoot with rfl | ⟨-, rfl⟩
      · exact unlinked
      · exact rooting.fresh.2
  | _ =>
      obtain rfl : root = q.start_ := isRoot
      exact unlinked

theorem Reaches.popped_end {links : Pos → Option Pos} (reaches : Reaches q config)
    (exits : tick q config = .inr (some links)) :
    config.phase = .pop ∧ links = config.search.pre ∧ Known q links q.end_ := by
  have sound := reaches.sound
  by_cases popping : config.phase = .pop
  · obtain ⟨search, phase⟩ := config
    simp only at popping
    subst phase
    rcases tick_pop q search with ⟨-, leaves⟩ | ⟨st, openlist, opened,
      ⟨-, continues⟩ | ⟨atEnd, leaves⟩ | ⟨-, continues⟩⟩
    · simp [leaves] at exits
    · simp [continues] at exits
    · obtain rfl := Option.some.inj (Sum.inr.inj (leaves.symm.trans exits))
      have popped := sound.opened st (opened ▸ List.mem_cons_self)
      exact ⟨rfl, rfl, atEnd ▸ popped.2⟩
    · simp [continues] at exits
  · obtain ⟨next, ticked, -⟩ := ticks_of_turns reaches.1.endFree sound.turns popping
    simp [ticked] at exits

theorem Reaches.end_rooted {links : Pos → Option Pos}
    (kept : ∀ config, Reaches q config → ¬ LosesFlag q config)
    (reaches : Reaches q config) (exits : tick q config = .inr (some links)) :
    BackedBy links (· = q.start_) ∧ Rooted links q.start_ q.end_ := by
  obtain ⟨popping, rfl, known⟩ := reaches.popped_end exits
  have backed := (reaches.rooting kept).backed
  rw [popping] at backed
  obtain ⟨root, rfl, leads⟩ := known.rootedIn backed
  exact ⟨backed, leads⟩

theorem exists_exit (searches : Searches q) {found : Option (Pos → Option Pos)}
    (returns : Returns (tick q) (initial q) found) :
    ∃ config, Reaches q config ∧ tick q config = .inr found := by
  obtain ⟨fuel, returned⟩ := returns
  obtain ⟨last, -, run, exits⟩ :=
    exit_of_invariant (fun _ => True) (fun _ _ _ _ => trivial) trivial returned
  exact ⟨last, ⟨searches, run⟩, exits⟩

end Runs

/-- In a run that loses no flag, `find` terminates on acyclic links exactly if
no step offers a predecessor to the start. -/
theorem find_terminates_iff (q : Query)
    (kept : ∀ config, Reaches q config → ¬ LosesFlag q config) :
    Terminates q ↔ ∀ config, Reaches q config → ¬ OffersStart q config := by
  constructor
  · intro terminates config reaches offered
    have unlinked := terminates.startUnlinked config reaches
    cases stepped : tick q config with
    | inl after =>
        have stays := terminates.startUnlinked after (reaches.next stepped)
        exact (start_unlinked_tick_iff reaches.1.endFree reaches.sound stepped
          unlinked).mp stays offered
    | inr found =>
        have popping : config.phase = .pop := by
          by_contra notPop
          obtain ⟨next, ticked, -⟩ :=
            ticks_of_turns reaches.1.endFree reaches.sound.turns notPop
          simp [ticked] at stepped
        obtain ⟨entry, member, -⟩ := offered
        simp [offers, popping] at member
  · intro notOffered
    refine ⟨?_, ?_, ?_, ?_⟩
    · by_cases searches : Searches q
      · obtain ⟨found, returns⟩ := search_returns searches.endFree
        cases found with
        | none =>
            have finds := (finds_iff searches).mpr
              (exists_findPath_iff.mpr (Or.inl ⟨returns, rfl⟩))
            exact ⟨[], finds⟩
        | some links =>
            obtain ⟨config, reaches, exits⟩ := exists_exit searches returns
            obtain ⟨-, rooted⟩ := reaches.end_rooted kept exits
            obtain ⟨-, rfl, -⟩ := reaches.popped_end exits
            have unlinked := reaches.start_unlinked notOffered
            obtain ⟨waypoints, walks⟩ := walkBack_returns unlinked rooted [q.end_]
            have finds := (finds_iff searches).mpr
              (exists_findPath_iff.mpr (Or.inr ⟨_, waypoints, returns, walks, rfl⟩))
            exact ⟨waypoints.reverse, finds⟩
      · exact ⟨[], (finds_nil_of_not_searches searches).mpr rfl⟩
    · exact fun config reaches =>
        (reaches.rooting kept).acyclic (reaches.start_unlinked notOffered)
    · exact fun config reaches => reaches.start_unlinked notOffered
    · exact fun config links reaches exits => (reaches.end_rooted kept exits).2

section Examples

variable {q : Query} {fuel : Nat}

/-- What holds of the states that a finite search passes through holds of all it reaches. -/
theorem forall_reaches_of_passes {P : Config → Prop}
    (returned : (loop (tick q) fuel (initial q)).isSome = true)
    (holds : ∀ config ∈ passes (tick q) fuel (initial q), P config) (config : Config)
    (reaches : Reaches q config) : P config :=
  holds config ((mem_passes returned).mpr reaches.2)

instance (g : Grid) (links : Pos → Option Pos) (p d : Pos) : Decidable (Overwrites g links p d) :=
  match forced : g.fneig p d with
  | [first, last] =>
      decidable_of_iff (links first.1 = none ∧ links last.1 ≠ none)
        ⟨fun ⟨unlinked, linked⟩ => ⟨first, last, forced, unlinked, linked⟩, by
          rintro ⟨one, other, both, unlinked, linked⟩
          obtain ⟨rfl, rfl⟩ : first = one ∧ last = other := by
            simpa using forced.symm.trans both
          exact ⟨unlinked, linked⟩⟩
  | [] => isFalse fun ⟨_, _, both, _⟩ => nomatch forced.symm.trans both
  | [_] => isFalse fun ⟨_, _, both, _⟩ => by simpa using forced.symm.trans both
  | _ :: _ :: _ :: _ => isFalse fun ⟨_, _, both, _⟩ => by simpa using forced.symm.trans both

instance (links : Pos → Option Pos) (p d : Pos) : Decidable (LineLosesFlag q links p d) :=
  decidable_of_iff (jumps q p d = true ∧ checkend q p (jumpEnd q p d) = false ∧
      Overwrites q.grid links (jumpEnd q p d) d ∧ links (jumpEnd q p d) = none ∧
        jumpEnd q p d ≠ q.start_)
    ⟨fun ⟨jumping, passing, overwritten, unlinked, notStart⟩ =>
      ⟨jumping, passing, overwritten, unlinked, notStart⟩,
    fun loses => ⟨loses.jumping, loses.passing, loses.overwritten, loses.unlinked, loses.notStart⟩⟩

instance (links : Pos → Option Pos) (pstart p d : Pos) :
    Decidable (WalkLosesFlag q links pstart p d) :=
  decidable_of_iff (roundForced q links p d = false ∧
      (Overwrites q.grid links p ⟨d.x, 0⟩ ∨
        Overwrites q.grid (linksBetween q links p d) p ⟨0, d.y⟩) ∧
      links p = none ∧ p ≠ pstart ∧ p ≠ q.start_)
    ⟨fun ⟨notForced, overwritten, unlinked, moved, notStart⟩ =>
      ⟨notForced, overwritten, unlinked, moved, notStart⟩,
    fun loses => ⟨loses.notForced, loses.overwritten, loses.unlinked, loses.moved, loses.notStart⟩⟩

instance (config : Config) : Decidable (LosesFlag q config) :=
  match config with
  | ⟨_, .pop⟩ => inferInstanceAs (Decidable False)
  | ⟨_, .directions _ []⟩ => inferInstanceAs (Decidable False)
  | ⟨search, .directions st (d :: _)⟩ =>
      inferInstanceAs (Decidable ((d.x = 0 ∨ d.y = 0) ∧ LineLosesFlag q search.pre st.pos d))
  | ⟨search, .diagonal st d s _⟩ =>
      inferInstanceAs (Decidable (WalkLosesFlag q search.pre st.pos s.pos d))
  | ⟨search, .horizontal _ d s _⟩ =>
      inferInstanceAs (Decidable (LineLosesFlag q search.pre s.pos ⟨d.x, 0⟩))
  | ⟨search, .vertical _ d s _ _⟩ =>
      inferInstanceAs (Decidable (LineLosesFlag q search.pre s.pos ⟨0, d.y⟩))

instance (config : Config) : Decidable (OffersStart q config) :=
  inferInstanceAs (Decidable (∃ entry ∈ offers q config, entry.1 = q.start_))

end Examples

theorem bend_len : (1 : Int) ≤ 3 ∧ (3 : Int) ≤ 32767 := by
  decide

theorem bend_wid : (1 : Int) ≤ 4 ∧ (4 : Int) ≤ 32767 := by
  decide

theorem bend_ready : (jpcache ((Grid.new 3 4 bend_len bend_wid).setObstacle
    ⟨0, 1⟩ true) 20).isSome = true := by
  decide +kernel

/-- A map of three by four cells with an obstacle on the line between the two ends. -/
def bendQuery : Query :=
  Query.ask ((Grid.new 3 4 bend_len bend_wid).setObstacle ⟨0, 1⟩ true) 20
    bend_ready false ⟨0, 0⟩ ⟨0, 3⟩

theorem bend_returns : (loop (tick bendQuery) 30 (initial bendQuery)).isSome = true := by
  decide +kernel

theorem bend_keepsFlags : ∀ config ∈ passes (tick bendQuery) 30 (initial bendQuery),
    ¬ LosesFlag bendQuery config := by
  decide +kernel

/-- The search around the obstacle terminates. -/
theorem find_terminates_iff_bend : Terminates bendQuery :=
  (find_terminates_iff bendQuery
    (forall_reaches_of_passes bend_returns bend_keepsFlags)).mpr
    (forall_reaches_of_passes bend_returns (by decide +kernel))

/-- A map of five by seven cells with two obstacles, searched from one corner
to another. -/
def roundaboutQuery : Query :=
  Query.ask
    (((Grid.new 5 7 (by decide) (by decide)).setObstacle ⟨2, 4⟩ true).setObstacle
      ⟨4, 1⟩ true)
    20 (by decide +kernel) true ⟨4, 0⟩ ⟨4, 6⟩

/-- The search reaches the end over (4, 2) and (3, 1), and has meanwhile linked
the start (4, 0) to (3, 1); `genret` never leaves these positions. -/
theorem not_terminates_roundabout : ¬ Terminates roundaboutQuery := by
  intro terminates
  have searched : (loop (tick roundaboutQuery) 60 (initial roundaboutQuery)).bind
      (fun found => found.map fun links =>
        [links ⟨4, 6⟩, links ⟨4, 2⟩, links ⟨3, 1⟩, links ⟨4, 0⟩]) =
      some [some ⟨4, 2⟩, some ⟨3, 1⟩, some ⟨4, 0⟩, some ⟨3, 1⟩] := by
    decide +kernel
  obtain ⟨found, returned, mapped⟩ := Option.bind_eq_some_iff.mp searched
  obtain ⟨links, rfl, recorded⟩ := Option.map_eq_some_iff.mp mapped
  simp only [List.cons.injEq, and_true] at recorded
  obtain ⟨fromEnd, fromSecond, fromThird, fromStart⟩ := recorded
  have searches : Searches roundaboutQuery := by
    refine ⟨?_, ?_, ?_⟩ <;> decide +kernel
  obtain ⟨ret, finds⟩ := terminates.returns
  rcases exists_findPath_iff.mp ((finds_iff searches).mp finds) with
    ⟨returns, -⟩ | ⟨others, waypoints, returns, ⟨fuel, walked⟩, -⟩
  · exact absurd (returns.unique ⟨60, returned⟩) (by simp)
  · obtain rfl := Option.some.inj (returns.unique ⟨60, returned⟩)
    have diverges : Diverges (walkBackBody others mergesWaypoint)
        (roundaboutQuery.end_, [roundaboutQuery.end_]) := by
      apply walkBack_diverges
        (fun p => p ∈ ([⟨4, 6⟩, ⟨4, 2⟩, ⟨3, 1⟩, ⟨4, 0⟩] : List Pos))
      · intro p member
        simp only [List.mem_cons, List.not_mem_nil, or_false] at member
        rcases member with rfl | rfl | rfl | rfl
        · exact ⟨_, fromEnd, by simp⟩
        · exact ⟨_, fromSecond, by simp⟩
        · exact ⟨_, fromThird, by simp⟩
        · exact ⟨_, fromStart, by simp⟩
      · exact List.mem_cons_self
    simp [diverges fuel] at walked

end Jps

end LuaServer
