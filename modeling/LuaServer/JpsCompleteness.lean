import LuaServer.AstarCorrectness
import LuaServer.JpsArrivals

/-!
# Completeness of the jump point search

A search that loses no cell it meets pops every end that can be reached: it arrives
at the end of every canonical path.  The other way round, everything the search
links is reachable unless it links a blocked continuation.  So a search of both kinds
finds a path exactly where the A* search does.
-/

namespace LuaServer

namespace Jps

open GridCell MachineIntegers PredecessorLinks FueledLoops CanonicalGridPaths

section Searching

variable {q : Query} {config : Config} {p d : Pos}

section Soundness

/-- A straight `step` hangs what it offers on a cell that it sees. -/
theorem lineOffers_before {links : Pos → Option Pos} (straight : IsStraight d)
    {entry : Pos × Pos} (member : entry ∈ lineOffers q links p d) :
    ClearLine q.grid.Free p entry.2 := by
  by_cases jumping : jumps q p d = true
  swap
  · simp [lineOffers, jumping] at member
  obtain ⟨free, len, -, atEnd, clear⟩ := jump_spec straight jumping
  have here := ClearLine.refl free
  by_cases ended : checkend q p (jumpEnd q p d) = true
  · simp only [lineOffers, jumping, ended, Bool.not_true, Bool.false_eq_true, if_false,
      if_true] at member
    obtain rfl := List.mem_singleton.mp member
    exact here
  · simp only [lineOffers, jumping, ended, Bool.not_true, Bool.false_eq_true,
      if_false] at member
    rcases List.mem_append.mp member with forced | own
    · rw [(mem_forcedOffers forced).1, atEnd]
      refine ⟨d, len, straight.isStep, rfl, fun index indexLe => ?_⟩
      by_cases first : index = 0
      · subst first
        simpa using free
      · exact clear index (by omega) indexLe
    · split at own
      · obtain rfl := List.mem_singleton.mp own
        exact here
      · simp at own

/-- A small step hangs what it offers on a cell that is connected with the popped one
by clear lines. -/
theorem Clear.offers_before (clear : Clear q config) (turns : config.phase.Turns)
    {entry : Pos × Pos} (member : entry ∈ Jps.offers q config) :
    ∃ st, config.phase.origin = some st ∧
      Relation.ReflTransGen (ClearLine q.grid.Free) st.pos entry.2 := by
  obtain ⟨search, phase⟩ := config
  cases phase with
  | pop => simp [Jps.offers] at member
  | directions st dirs =>
      obtain ⟨d, among, flat, offered⟩ := mem_directions_offers member
      exact ⟨st, rfl, .single (lineOffers_before ((turns d among).straight flat) offered)⟩
  | diagonal st d s dirs =>
      have walked : Walked q st d s := clear.stands
      have line := walked.clearLine turns.1.direction
      refine ⟨st, rfl, ?_⟩
      rcases mem_diagonal_offers member with forced | forced | rfl | ⟨rfl, -⟩
      · rw [(mem_forcedOffers forced).1]
        exact .single line
      · rw [(mem_forcedOffers forced).1]
        exact .single line
      · exact .refl
      · exact .refl
  | horizontal st d s dirs =>
      have walks : Walks d s := turns.1
      have walked : Walked q st d s := clear.stands
      have straight := walks.direction.horizontal walks.sideways
      exact ⟨st, rfl, .tail (.single (walked.clearLine walks.direction))
        (lineOffers_before straight member)⟩
  | vertical st d s r1 dirs =>
      have walks : Walks d s := turns.1
      have walked : Walked q st d s := clear.stands
      have straight := walks.direction.vertical walks.upright
      refine ⟨st, rfl, ?_⟩
      rcases mem_vertical_offers member with line | rfl | ⟨rfl, -⟩
      · exact .tail (.single (walked.clearLine walks.direction))
          (lineOffers_before straight line)
      · exact .refl
      · exact .refl

/-- In a run without blocked continuations every known position is connected with the
start by clear lines. -/
theorem Reaches.connected (open_ : ∀ config, Reaches q config → ¬ BlockedContinuation q config)
    (reaches : Reaches q config) (known : Known q config.search.pre p) :
    Relation.ReflTransGen (ClearLine q.grid.Free) q.start_ p := by
  obtain ⟨searches, run⟩ := reaches
  induction run generalizing p with
  | refl =>
      rcases known with rfl | linked
      · exact .refl
      · simp [initial] at linked
  | @tail config after run stepped ih =>
      have reaches : Reaches q config := ⟨searches, run⟩
      by_cases popping : config.phase = .pop
      · obtain ⟨search, phase⟩ := config
        simp only at popping ih
        subst popping
        apply ih
        rcases tick_pop q search with ⟨-, exits⟩ | ⟨st, openlist, -,
          ⟨-, continues⟩ | ⟨-, exits⟩ | ⟨-, continues⟩⟩
        · exact absurd (stepped.symm.trans exits) (by simp)
        · obtain rfl := Sum.inl.inj (continues.symm.trans stepped)
          exact known
        · exact absurd (stepped.symm.trans exits) (by simp)
        · obtain rfl := Sum.inl.inj (continues.symm.trans stepped)
          exact known
      · obtain ⟨next, ticks⟩ := ticks_of_turns searches.endFree reaches.sound.turns popping
        obtain rfl := Sum.inl.inj (ticks.1.symm.trans stepped)
        rcases known with isStart | linked
        · exact ih (Or.inl isStart)
        · obtain ⟨before, recorded⟩ := Option.isSome_iff_exists.mp linked
          rw [ticks.2.1.pre] at recorded
          rcases foldl_insertLink_eq_some recorded with old | ⟨unlinked, member⟩
          · exact ih (Or.inr (by simp [old]))
          · have clear := reaches.clear open_
            obtain ⟨st, isOrigin, leads⟩ := clear.offers_before reaches.sound.turns member
            have line := clear.offers searches.endFree reaches.sound.turns (open_ _ reaches)
              member unlinked
            exact ((ih (reaches.sound.origin st isOrigin)).trans leads).tail line

end Soundness

end Searching

/-- The same obstacles as the blocks of a skill world. -/
def Grid.world (g : Grid) : World where
  len := g.len
  wid := g.wid
  block p := if g.obstacle_ p then some 1 else none
  lenInt16 := by
    have range := g.lenRange
    omega
  widInt16 := by
    have range := g.widRange
    omega

theorem Grid.world_free {g : Grid} {p : Pos} : g.world.Free p ↔ g.Free p := by
  have inside : g.world.inarea p = g.inarea p := by
    rw [Bool.eq_iff_iff, World.inarea_iff, Jps.inarea_iff]
    rfl
  have blocks : g.world.block p = if g.obstacle_ p then some 1 else none := rfl
  simp only [World.Free, World.isblock, Grid.Free, Grid.obstacle, inside, blocks]
  cases g.obstacle_ p <;> simp

/-- The end can be reached from the start by moves between free cells. -/
def EndReachable (q : Query) : Prop :=
  Astar.Reachable q.grid.world q.start_ q.end_

section Reachability

variable {q : Query} {first last : Pos}

theorem exists_leads (reachable : Astar.Reachable q.grid.world first last) :
    ∃ steps, Leads q.grid.Free first steps last := by
  induction reachable using Relation.ReflTransGen.head_induction_on with
  | refl => exact ⟨[], rfl⟩
  | head move _ ih =>
      obtain ⟨-, nextFree, direction, isStep, nonzero, rfl⟩ := move
      obtain ⟨steps, leads⟩ := ih
      exact ⟨direction :: steps, GridCell.mem_directions.mpr ⟨isStep, nonzero⟩,
        Grid.world_free.mp nextFree, leads⟩

theorem reachable_of_clearLine (line : ClearLine q.grid.Free first last) :
    Astar.Reachable q.grid.world first last := by
  obtain ⟨direction, count, isStep, rfl, clear⟩ := line
  induction count with
  | zero =>
      simp only [Nat.cast_zero, advance_zero]
      exact .refl
  | succ count ih =>
      have before := ih fun index indexLe => clear index (by omega)
      by_cases stays : direction = ⟨0, 0⟩
      · have same : first.advance direction (count + 1 : Nat) =
            first.advance direction count := by
          simp [stays, advance]
        rw [same]
        exact before
      · refine .tail before ⟨Grid.world_free.mpr (clear count (by omega)),
          Grid.world_free.mpr (clear (count + 1) le_rfl), direction, isStep, stays, ?_⟩
        rw [advance_advance]
        push_cast
        rfl

theorem reachable_of_connected
    (connected : Relation.ReflTransGen (ClearLine q.grid.Free) first last) :
    Astar.Reachable q.grid.world first last := by
  induction connected with
  | refl => exact .refl
  | tail _ line ih => exact ih.trans (reachable_of_clearLine line)

/-- A search that loses no cell it meets pops every end that can be reached. -/
theorem popsEnd_of_reachable (searches : Searches q)
    (keeps : ∀ config, Reaches q config → ¬ Loses q config) (reachable : EndReachable q) :
    PopsEnd q := by
  by_contra fails
  obtain ⟨steps, leads⟩ := exists_leads reachable
  obtain ⟨others, leads, canonical⟩ := exists_canonical leads
  cases others with
  | nil => exact searches.different leads
  | cons v steps =>
      obtain ⟨direction, next, rest⟩ := leads
      have arrives := arrives_first fails keeps searches direction next
      obtain ⟨last, arrivesEnd⟩ := arrives.along fails keeps direction next rest canonical
      exact not_arrives_end fails searches arrivesEnd

/-- An end that is popped can be reached, unless a blocked continuation is linked. -/
theorem PopsEnd.reachable (open_ : ∀ config, Reaches q config → ¬ BlockedContinuation q config)
    (pops : PopsEnd q) : EndReachable q := by
  obtain ⟨config, links, reaches, exits⟩ := pops
  obtain ⟨-, rfl, known⟩ := reaches.popped_end exits
  exact reachable_of_connected (reaches.connected open_ known)

/-- `Astar::find` returns a path exactly if the end can be reached. -/
theorem endReachable_iff_astar (searches : Searches q) (heuristic : Pos → Pos → Int)
    (quick : Bool) :
    EndReachable q ↔
      ∃ ret, ret ≠ [] ∧ Astar.Finds q.grid.world heuristic q.end_ quick q.start_ ret := by
  obtain ⟨ret, finds, unique, isEmpty, -⟩ :=
    Astar.find_correct q.grid.world heuristic q.start_ q.end_ quick
  have startFree : q.grid.world.isblock q.start_ = false :=
    Grid.world_free.mpr searches.startFree
  have endFree : q.grid.world.isblock q.end_ = false := Grid.world_free.mpr searches.endFree
  simp only [searches.different, startFree, endFree, Bool.false_eq_true, false_or] at isEmpty
  constructor
  · intro reachable
    exact ⟨ret, fun nothing => isEmpty.mp nothing reachable, finds⟩
  · rintro ⟨other, nonempty, findsOther⟩
    obtain rfl := unique other findsOther
    by_contra unreachable
    exact nonempty (isEmpty.mpr unreachable)

end Reachability

/-- A search that loses no cell it meets, if the end can be reached, and links no blocked
continuation otherwise, pops the end exactly if it can be reached, that is, if the A*
search finds a path on the same map. -/
theorem popsEnd_iff (q : Query) (searches : Searches q)
    (keeps : EndReachable q → ∀ config, Reaches q config → ¬ Loses q config)
    (open_ : ¬ EndReachable q → ∀ config, Reaches q config → ¬ BlockedContinuation q config)
    (heuristic : Pos → Pos → Int) (quick : Bool) :
    (PopsEnd q ↔ EndReachable q) ∧
      (PopsEnd q ↔
        ∃ ret, ret ≠ [] ∧ Astar.Finds q.grid.world heuristic q.end_ quick q.start_ ret) := by
  have pops : PopsEnd q ↔ EndReachable q := by
    constructor
    · intro pops
      by_contra unreachable
      exact unreachable (pops.reachable (open_ unreachable))
    · exact fun reachable => popsEnd_of_reachable searches (keeps reachable) reachable
  exact ⟨pops, pops.trans (endReachable_iff_astar searches heuristic quick)⟩

section Examples

variable {q : Query} {fuel : Nat}

/-- Every cell that is met on a finite way is open at some time of it. -/
def KeepsAlong (q : Query) (way : List Config) : Prop :=
  ∀ config ∈ way, ∀ entry ∈ meets q config, entry.1 = q.end_ ∨
    ∃ other ∈ way, ∃ st ∈ other.search.openlist, st.pos = entry.1 ∧ entry.2 ∈ dirs st

instance (q : Query) (way : List Config) : Decidable (KeepsAlong q way) :=
  inferInstanceAs (Decidable (∀ config ∈ way, ∀ entry ∈ meets q config, _))

theorem not_loses_of_keepsAlong (returned : (loop (tick q) fuel (initial q)).isSome = true)
    (keeps : KeepsAlong q (passes (tick q) fuel (initial q))) (config : Config)
    (reaches : Reaches q config) : ¬ Loses q config := by
  rintro ⟨entry, member, notEnd, notQueued⟩
  rcases keeps config ((mem_passes returned).mpr reaches.2) entry member with
    atEnd | ⟨other, onWay, isOpen⟩
  · exact notEnd atEnd
  · exact notQueued ⟨other, ⟨reaches.1, (mem_passes returned).mp onWay⟩, isOpen⟩

/-- The end is popped exactly if the search leaves with predecessors. -/
theorem popsEnd_iff_isSome (searches : Searches q)
    (returned : (loop (tick q) fuel (initial q)).isSome = true) :
    PopsEnd q ↔ ((loop (tick q) fuel (initial q)).bind id).isSome = true := by
  obtain ⟨found, isFound⟩ := Option.isSome_iff_exists.mp returned
  have returns : Returns (tick q) (initial q) found := ⟨fuel, isFound⟩
  rw [isFound, Option.bind_some, id]
  constructor
  · rintro ⟨config, links, reaches, exits⟩
    obtain rfl := (returns.of_reaches reaches.2).unique (returns_of_exit exits)
    rfl
  · intro isLinks
    obtain ⟨links, rfl⟩ := Option.isSome_iff_exists.mp isLinks
    obtain ⟨config, reaches, exits⟩ := exists_exit searches returns
    exact ⟨config, links, reaches, exits⟩

end Examples

theorem detour_len : (1 : Int) ≤ 2 ∧ (2 : Int) ≤ 32767 := by
  decide

theorem detour_wid : (1 : Int) ≤ 3 ∧ (3 : Int) ≤ 32767 := by
  decide

theorem detour_ready : (jpcache ((Grid.new 2 3 detour_len detour_wid).setObstacle
    ⟨0, 1⟩ true) 20).isSome = true := by
  decide +kernel

/-- A map of two by three cells with an obstacle between the two ends. -/
def detourQuery : Query :=
  Query.ask ((Grid.new 2 3 detour_len detour_wid).setObstacle ⟨0, 1⟩ true) 20
    detour_ready false ⟨0, 0⟩ ⟨0, 2⟩

theorem endReachable_detour : EndReachable detourQuery := by
  have there : Astar.Move detourQuery.grid.world ⟨0, 0⟩ ⟨1, 1⟩ :=
    ⟨by decide, by decide, ⟨1, 1⟩, by decide, by decide, rfl⟩
  have back : Astar.Move detourQuery.grid.world ⟨1, 1⟩ ⟨0, 2⟩ :=
    ⟨by decide, by decide, ⟨-1, 1⟩, by decide, by decide, rfl⟩
  exact .tail (.single there) back

/-- The search around the obstacle loses no cell. -/
theorem popsEnd_iff_detour :
    (PopsEnd detourQuery ↔ EndReachable detourQuery) ∧
      (PopsEnd detourQuery ↔ ∃ ret, ret ≠ [] ∧
        Astar.Finds detourQuery.grid.world Astar.cost detourQuery.end_ false
          detourQuery.start_ ret) :=
  popsEnd_iff detourQuery ⟨by decide, by decide, by decide⟩
    (fun _ => @not_loses_of_keepsAlong detourQuery 30 (by decide +kernel) (by decide +kernel))
    (fun unreachable => absurd endReachable_detour unreachable) Astar.cost false

/-- A map of six by eight cells with both ends in one open column.  The cell (1, 2), where
the run up the column stops at a forced neighbour, is linked by then from another
direction, and the search does not go on from it. -/
def columnQuery : Query :=
  Query.ask
    ((((Grid.new 6 8 (by decide) (by decide)).setObstacle ⟨0, 2⟩ true).setObstacle
      ⟨2, 1⟩ true).setObstacle ⟨3, 5⟩ true)
    20 (by decide +kernel) true ⟨1, 0⟩ ⟨1, 7⟩

theorem endReachable_column : EndReachable columnQuery := by
  have line : ClearLine columnQuery.grid.Free ⟨1, 0⟩ ⟨1, 7⟩ :=
    ⟨⟨0, 1⟩, 7, by decide, rfl, by decide +kernel⟩
  exact reachable_of_clearLine line

theorem not_endReachable_squeeze : ¬ EndReachable squeezeQuery := by
  intro reachable
  have searches : Searches squeezeQuery := ⟨by decide, by decide, by decide⟩
  obtain ⟨ret, nonempty, finds⟩ :=
    (endReachable_iff_astar searches (fun _ _ => 0) false).mp reachable
  have nothing : Astar.Finds squeezeQuery.grid.world (fun _ _ => 0) squeezeQuery.end_ false
      squeezeQuery.start_ [] := ⟨20, by decide +kernel⟩
  obtain ⟨only, -, unique, -⟩ :=
    Astar.find_correct squeezeQuery.grid.world (fun _ _ => 0) squeezeQuery.start_
      squeezeQuery.end_ false
  exact nonempty ((unique ret finds).trans (unique [] nothing).symm)

/-- The search misses an end that can be reached, and pops one behind obstacles. -/
theorem popsEnd_column_squeeze :
    (Searches columnQuery ∧ EndReachable columnQuery ∧ ¬ PopsEnd columnQuery) ∧
      (Searches squeezeQuery ∧ ¬ EndReachable squeezeQuery ∧ PopsEnd squeezeQuery) := by
  have column : Searches columnQuery := ⟨by decide, by decide, by decide⟩
  have squeeze : Searches squeezeQuery := ⟨by decide, by decide, by decide⟩
  refine ⟨⟨column, endReachable_column, ?_⟩, ⟨squeeze, not_endReachable_squeeze, ?_⟩⟩
  · rw [@popsEnd_iff_isSome _ 120 column (by decide +kernel)]
    decide +kernel
  · rw [@popsEnd_iff_isSome _ 60 squeeze (by decide +kernel)]
    decide +kernel

end Jps

end LuaServer
