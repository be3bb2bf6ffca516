import LuaServer.JpsTermination

/-!
# Validity of the paths the jump point search returns

All links the search records join two cells on a clear row, column or
diagonal, with one exception: a diagonal round that finds a forced neighbour
links the next cell of the diagonal without looking whether it is an obstacle.
In a run in which that cell is always free and no flag is lost, a path that
`find` returns is a chain of clear lines from the start to the end.
-/

namespace LuaServer

namespace Jps

open GridCell MachineIntegers PredecessorLinks FueledLoops

/-- The next small step links the cell behind a forced neighbour, although it is
an obstacle or outside the map. -/
def BlockedContinuation (q : Query) (config : Config) : Prop :=
  match config.phase with
  | .diagonal _ d s _ => roundForced q config.search.pre s.pos d = true ∧
      ¬ q.grid.Free (s.moved d).pos ∧ config.search.pre (s.moved d).pos = none
  | _ => False

section Lines

variable {q : Query} {links : Pos → Option Pos} {p d : Pos}

/-- A free cell and its forced neighbours see each other. -/
theorem clearLine_fneig (straight : IsStraight d) (free : q.grid.Free p)
    {neighbour : Pos × Pos} (member : neighbour ∈ q.grid.fneig p d) :
    ClearLine q.grid.Free p neighbour.1 := by
  have neighbourFree := fneig_free member
  have steps : ∀ turn : Pos, turn.IsStep → q.grid.inarea (shift p turn) = true →
      shift (shift p turn) d = p.advance ⟨turn.x + d.x, turn.y + d.y⟩ 1 := by
    intro turn turnStep inside
    rw [shift_eq inside straight.isStep, shift_eq free.inarea turnStep]
    simp only [advance, GridCell.mk.injEq]
    constructor <;> ring
  have atNeighbour : neighbour.1 = p.advance neighbour.2 1 := by
    simp only [Grid.fneig, List.mem_append] at member
    rcases member with first | last
    · split at first
      next guard =>
        obtain rfl := List.mem_singleton.mp first
        simp only [Bool.and_eq_true] at guard
        rw [steps ⟨d.y, d.x⟩ (by rcases straight with rfl | rfl | rfl | rfl <;> decide)
          guard.1.1]
        simp [add_comm]
      next => simp at first
    · split at last
      next guard =>
        obtain rfl := List.mem_singleton.mp last
        simp only [Bool.and_eq_true] at guard
        rw [steps ⟨-d.y, -d.x⟩ (by rcases straight with rfl | rfl | rfl | rfl <;> decide)
          guard.1.1]
        simp [sub_eq_add_neg, add_comm]
      next => simp at last
  rw [atNeighbour] at neighbourFree ⊢
  exact ClearLine.of_step (fneig_step straight member) free neighbourFree

theorem clearLine_forcedOffers (straight : IsStraight d) (free : q.grid.Free p)
    {entry : Pos × Pos} (member : entry ∈ forcedOffers q.grid p d) :
    ClearLine q.grid.Free entry.2 entry.1 := by
  obtain ⟨atCell, neighbour, forced, same⟩ := mem_forcedOffers member
  rw [atCell, ← same]
  exact clearLine_fneig straight free forced

/-- A number between the ends of an interval, from the sign of a product. -/
theorem between_of_mul_nonneg {value len : Int} (positive : 0 < len)
    (signs : 0 ≤ value * (len - value)) : 0 ≤ value ∧ value ≤ len := by
  constructor <;> by_contra outside <;> nlinarith

theorem of_checkend {p1 p2 : Pos} (ended : checkend q p1 p2 = true) :
    p1 = q.end_ ∨ p2 = q.end_ ∨
      (0 ≤ toInt16 (q.end_.x - p1.x) * toInt16 (p2.x - q.end_.x) +
          toInt16 (q.end_.y - p1.y) * toInt16 (p2.y - q.end_.y) ∧
        toInt16 (q.end_.x - p1.x) * toInt16 (p2.y - q.end_.y) =
          toInt16 (q.end_.y - p1.y) * toInt16 (p2.x - q.end_.x)) := by
  simp only [checkend] at ended
  split at ended
  next atCorner =>
    simp only [Bool.or_eq_true, decide_eq_true_eq] at atCorner
    exact atCorner.imp_right Or.inl
  next =>
    split at ended
    next => simp at ended
    next acute => exact Or.inr (Or.inr ⟨not_lt.mp acute, by simpa using ended⟩)

/-- The end that `checkend` reports lies on the line walked over. -/
theorem exists_advance_of_checkend (straight : IsStraight d) (endFree : q.grid.Free q.end_)
    (free : q.grid.Free p) {len : Nat} (positive : 0 < len)
    (lastFree : q.grid.Free (p.advance d len))
    (ended : checkend q p (p.advance d len) = true) :
    ∃ count : Nat, count ≤ len ∧ q.end_ = p.advance d count := by
  have range := inMapRange_of_inarea free.inarea
  have endRange := inMapRange_of_inarea endFree.inarea
  have lastRange := inMapRange_of_inarea lastFree.inarea
  simp only [InMapRange, advance_x, advance_y] at range endRange lastRange
  rcases of_checkend ended with same | same | ⟨acute, parallel⟩
  · exact ⟨0, Nat.zero_le _, by simp [same]⟩
  · exact ⟨len, le_rfl, same.symm⟩
  simp only [advance_x, advance_y] at acute parallel
  rw [toInt16_of_range (by omega) (by omega), toInt16_of_range (by omega) (by omega),
    toInt16_of_range (by omega) (by omega), toInt16_of_range (by omega) (by omega)]
    at acute parallel
  have lenPositive : (0 : Int) < len := by exact_mod_cast positive
  have unit : d.x * d.x + d.y * d.y = 1 := by
    rcases straight with rfl | rfl | rfl | rfl <;> rfl
  -- Both differences are multiples of the direction by their inner product.
  let count := (q.end_.x - p.x) * d.x + (q.end_.y - p.y) * d.y
  have scaled : (len : Int) * ((q.end_.x - p.x) * d.y - (q.end_.y - p.y) * d.x) = 0 := by
    linear_combination parallel
  have aligned := (mul_eq_zero.mp scaled).resolve_left (by omega)
  have xEq : q.end_.x = p.x + d.x * count := by
    simp only [count]
    linear_combination d.y * aligned - (q.end_.x - p.x) * unit
  have yEq : q.end_.y = p.y + d.y * count := by
    simp only [count]
    linear_combination -d.x * aligned - (q.end_.y - p.y) * unit
  have signs : 0 ≤ count * (len - count) := by
    rw [xEq, yEq] at acute
    have expanded : (p.x + d.x * count - p.x) * (p.x + d.x * len - (p.x + d.x * count)) +
        (p.y + d.y * count - p.y) * (p.y + d.y * len - (p.y + d.y * count)) =
          count * (len - count) := by
      linear_combination count * (len - count) * unit
    rwa [expanded] at acute
  obtain ⟨lower, upper⟩ := between_of_mul_nonneg lenPositive signs
  obtain ⟨steps, stepsEq⟩ : ∃ steps : Nat, (steps : Int) = count :=
    ⟨count.toNat, by omega⟩
  refine ⟨steps, by omega, ?_⟩
  rw [stepsEq]
  exact GridCell.ext xEq yEq

/-- Everything a straight `step` offers is a clear line. -/
theorem clearLine_lineOffers (straight : IsStraight d) (endFree : q.grid.Free q.end_)
    {entry : Pos × Pos} (member : entry ∈ lineOffers q links p d) :
    ClearLine q.grid.Free entry.2 entry.1 := by
  by_cases jumping : jumps q p d = true
  swap
  · simp [lineOffers, jumping] at member
  obtain ⟨free, len, positive, atEnd, clear⟩ := jump_spec straight jumping
  have clearFrom : ∀ i : Nat, i ≤ len → q.grid.Free (p.advance d i) := by
    intro i iLe
    by_cases first : i = 0
    · subst i
      simpa using free
    · exact clear i (by omega) iLe
  have line : ∀ count : Nat, count ≤ len → ClearLine q.grid.Free p (p.advance d count) :=
    fun count countLe => ⟨d, count, straight.isStep, rfl,
      fun i iLe => clearFrom i (by omega)⟩
  have lastFree := clearFrom len le_rfl
  by_cases ended : checkend q p (jumpEnd q p d) = true
  · simp only [lineOffers, jumping, ended, Bool.not_true, Bool.false_eq_true, if_false,
      if_true] at member
    obtain rfl := List.mem_singleton.mp member
    rw [atEnd] at ended
    obtain ⟨count, countLe, onLine⟩ :=
      exists_advance_of_checkend straight endFree free positive lastFree ended
    simp only [onLine]
    exact line count countLe
  · simp only [lineOffers, jumping, ended, Bool.not_true, Bool.false_eq_true,
      if_false] at member
    rw [atEnd] at member
    rcases List.mem_append.mp member with forced | own
    · exact clearLine_forcedOffers straight lastFree forced
    · split at own
      · obtain rfl := List.mem_singleton.mp own
        exact line len le_rfl
      · simp at own

end Lines

section Walks

variable {q : Query} {st s : State} {d : Pos}

/-- The diagonal walk from `st` has come to `s` over free cells. -/
def Walked (q : Query) (st : State) (d : Pos) (s : State) : Prop :=
  ∃ count : Nat, s.pos = st.pos.advance d count ∧
    ∀ i : Nat, i ≤ count → q.grid.Free (st.pos.advance d i)

theorem Walked.free (walked : Walked q st d s) : q.grid.Free s.pos := by
  obtain ⟨count, atCell, clear⟩ := walked
  exact atCell ▸ clear count le_rfl

theorem Walked.clearLine (walked : Walked q st d s) (direction : IsDirection d) :
    ClearLine q.grid.Free st.pos s.pos := by
  obtain ⟨count, atCell, clear⟩ := walked
  exact ⟨d, count, direction.isStep, atCell, clear⟩

/-- From a free cell the walk moves on exactly. -/
theorem Walked.moved (walked : Walked q st d s) (direction : IsDirection d)
    (free : q.grid.Free (s.moved d).pos) (weight : Int) :
    Walked q st d ((s.moved d).paid weight) := by
  obtain ⟨count, atCell, clear⟩ := walked
  have inside : q.grid.inarea s.pos = true := (atCell ▸ clear count le_rfl).inarea
  have moves : (s.moved d).pos = st.pos.advance d (count + 1 : Nat) := by
    have exactMove : (s.moved d).pos = s.pos.advance d 1 :=
      shift_eq inside direction.isStep
    rw [exactMove, atCell, advance_advance]
    push_cast
    rfl
  refine ⟨count + 1, moves, ?_⟩
  intro i iLe
  by_cases last : i = count + 1
  · subst i
    exact moves ▸ free
  · exact clear i (by omega)

/-- Where a walk goes on to a free cell, the line to it is clear. -/
theorem Walked.clearLine_moved (walked : Walked q st d s) (direction : IsDirection d)
    (free : q.grid.Free (s.moved d).pos) :
    ClearLine q.grid.Free st.pos (s.moved d).pos :=
  (walked.moved direction free 0).clearLine direction

end Walks

section Runs

variable {q : Query} {config after : Config}

/-- A diagonal walk stands on free cells. -/
def Phase.Stands (q : Query) : Phase → Prop
  | .diagonal st d s _ | .horizontal st d s _ | .vertical st d s _ _ => Walked q st d s
  | _ => True

/-- All links are clear lines, and so is the walk that is going on. -/
structure Clear (q : Query) (config : Config) : Prop where
  links : ∀ p before, config.search.pre p = some before →
    ClearLine q.grid.Free before p
  origin : ∀ st, config.phase.origin = some st → q.grid.Free st.pos
  stands : config.phase.Stands q

/-- What a small step newly links is a clear line, unless it links a blocked
continuation. -/
theorem Clear.offers (clear : Clear q config) (endFree : q.grid.Free q.end_)
    (turns : config.phase.Turns) (open_ : ¬ BlockedContinuation q config)
    {entry : Pos × Pos} (member : entry ∈ offers q config)
    (unlinked : config.search.pre entry.1 = none) :
    ClearLine q.grid.Free entry.2 entry.1 := by
  obtain ⟨search, phase⟩ := config
  cases phase with
  | pop => simp [Jps.offers] at member
  | directions st dirs =>
      obtain ⟨d, among, flat, offered⟩ := mem_directions_offers member
      exact clearLine_lineOffers ((turns d among).straight flat) endFree offered
  | diagonal st d s dirs =>
      have walks : Walks d s := turns.1
      have walked : Walked q st d s := clear.stands
      rcases mem_diagonal_offers member with first | second | rfl | ⟨rfl, goesOn⟩
      · exact clearLine_forcedOffers (walks.direction.horizontal walks.sideways)
          walked.free first
      · exact clearLine_forcedOffers (walks.direction.vertical walks.upright)
          walked.free second
      · exact walked.clearLine walks.direction
      · have free : q.grid.Free (s.moved d).pos := by
          rcases goesOn with forced | atEnd
          · by_contra blocked
            exact open_ ⟨forced, blocked, unlinked⟩
          · exact atEnd ▸ endFree
        exact walked.clearLine_moved walks.direction free
  | horizontal st d s dirs =>
      have walks : Walks d s := turns.1
      exact clearLine_lineOffers (walks.direction.horizontal walks.sideways) endFree member
  | vertical st d s r1 dirs =>
      have walks : Walks d s := turns.1
      have walked : Walked q st d s := clear.stands
      rcases mem_vertical_offers member with line | rfl | ⟨rfl, free⟩
      · exact clearLine_lineOffers (walks.direction.vertical walks.upright) endFree line
      · exact walked.clearLine walks.direction
      · exact walked.clearLine_moved walks.direction (by simpa [Grid.Free] using free)

theorem clear_initial (q : Query) : Clear q (initial q) :=
  ⟨by simp [initial], by simp [initial, Phase.origin], trivial⟩

/-- A small step without a blocked continuation keeps the links clear. -/
theorem Clear.ticks (clear : Clear q config) (endFree : q.grid.Free q.end_)
    (turns : config.phase.Turns) (ticks : Ticks q config after)
    (open_ : ¬ BlockedContinuation q config) : Clear q after := by
  obtain ⟨-, offered, follows⟩ := ticks
  have origins := (follows.keeps turns).2
  refine ⟨?_, fun st isOrigin => clear.origin st (origins st isOrigin), ?_⟩
  · intro p before recorded
    rw [offered.pre] at recorded
    rcases foldl_insertLink_eq_some recorded with old | ⟨unlinked, member⟩
    · exact clear.links p before old
    · exact clear.offers endFree turns open_ member unlinked
  · obtain ⟨search, phase⟩ := config
    cases phase with
    | pop => exact follows.elim
    | directions st dirs =>
        cases dirs with
        | nil =>
            have next : after.phase = .pop := follows
            exact next ▸ trivial
        | cons d dirs =>
            simp only [Follows] at follows
            split at follows
            next => exact follows ▸ trivial
            next =>
              have free := clear.origin st rfl
              have start : Walked q st d { st with dx := d.x, dy := d.y } := by
                refine ⟨0, by simp [State.pos], ?_⟩
                intro i iLe
                obtain rfl : i = 0 := by omega
                simpa using free
              exact follows ▸ start
    | diagonal st d s dirs =>
        have walked : Walked q st d s := clear.stands
        rcases follows with next | ⟨next, -, -, free, -⟩
        · exact next ▸ trivial
        · exact next ▸ walked.moved turns.1.direction free HWEI
    | horizontal st d s dirs =>
        have next : after.phase = _ := follows
        exact next ▸ clear.stands
    | vertical st d s r1 dirs =>
        rcases follows with ⟨-, next⟩ | ⟨-, next⟩
        · exact next ▸ trivial
        · exact next ▸ clear.stands

theorem Clear.tick (clear : Clear q config) (searches : Searches q)
    (sound : Sound q config) (stepped : tick q config = .inl after)
    (open_ : ¬ BlockedContinuation q config) : Clear q after := by
  by_cases popping : config.phase = .pop
  · obtain ⟨search, phase⟩ := config
    simp only at popping
    subst phase
    rcases tick_pop q search with ⟨-, exits⟩ | ⟨st, openlist, opened,
      ⟨-, continues⟩ | ⟨-, exits⟩ | ⟨-, continues⟩⟩
    · simp [exits] at stepped
    · obtain rfl := Sum.inl.inj (continues.symm.trans stepped)
      exact ⟨clear.links, by simp [Phase.origin], trivial⟩
    · simp [exits] at stepped
    · obtain rfl := Sum.inl.inj (continues.symm.trans stepped)
      refine ⟨clear.links, ?_, trivial⟩
      intro origin same
      obtain rfl := Option.some.inj same
      rcases (sound.opened st (opened ▸ List.mem_cons_self)).2 with atStart | linked
      · exact atStart ▸ searches.startFree
      · obtain ⟨before, recorded⟩ := Option.isSome_iff_exists.mp linked
        exact (clear.links st.pos before recorded).free_right
  · obtain ⟨next, ticks⟩ := ticks_of_turns searches.endFree sound.turns popping
    obtain rfl := Sum.inl.inj (ticks.1.symm.trans stepped)
    exact clear.ticks searches.endFree sound.turns ticks open_

/-- In a run without blocked continuations all links are clear lines. -/
theorem Reaches.clear
    (open_ : ∀ config, Reaches q config → ¬ BlockedContinuation q config)
    (reaches : Reaches q config) : Clear q config := by
  obtain ⟨searches, run⟩ := reaches
  induction run with
  | refl => exact clear_initial q
  | tail run stepped ih =>
      have before : Reaches q _ := ⟨searches, run⟩
      exact ih.tick searches before.sound stepped (open_ _ before)

end Runs

/-- Every path that `find` returns is a path. -/
def ReturnsPaths (q : Query) : Prop :=
  ∀ ret, Finds q ret → ret ≠ [] → IsPath q.grid.Free q.start_ q.end_ ret

/-- In a run that loses no flag and links no blocked continuation, a path that
`find` returns leads from the start to the end on clear lines. -/
theorem find_returnsPaths (q : Query)
    (kept : ∀ config, Reaches q config → ¬ LosesFlag q config)
    (open_ : ∀ config, Reaches q config → ¬ BlockedContinuation q config) :
    ReturnsPaths q := by
  intro ret finds nonempty
  by_cases searches : Searches q
  swap
  · exact absurd ((finds_nil_of_not_searches searches).mp finds) nonempty
  rcases exists_findPath_iff.mp ((finds_iff searches).mp finds) with
    ⟨-, isEmpty⟩ | ⟨links, waypoints, returns, walks, rfl⟩
  · exact absurd isEmpty nonempty
  obtain ⟨config, reaches, exits⟩ := exists_exit searches returns
  obtain ⟨backed, rooted⟩ := reaches.end_rooted kept exits
  obtain ⟨-, rfl, -⟩ := reaches.popped_end exits
  have inMap : ∀ p, q.grid.Free p → InMapRange p :=
    fun p free => inMapRange_of_inarea free.inarea
  obtain ⟨first, unlinked, leads, path⟩ :=
    walkBack_isPath inMap (reaches.clear open_).links walks
  cases startLink : config.search.pre q.start_ with
  | none =>
      obtain rfl := rooted.eq_of_unlinked startLink unlinked leads
      exact path
  | some before =>
      -- A start with a predecessor lies on a cycle that `genret` never leaves.
      have diverges : Diverges (walkBackBody config.search.pre mergesWaypoint)
          (q.end_, [q.end_]) := by
        apply walkBack_diverges (Rooted config.search.pre q.start_) _ rooted
        intro vertex rootedVertex
        rcases rootedVertex.cases_head with rfl | ⟨next, link, rest⟩
        · obtain ⟨root, rfl, leadsBack⟩ := backed q.start_ before startLink
          exact ⟨before, startLink, leadsBack⟩
        · exact ⟨next, link, rest⟩
      obtain ⟨fuel, walked⟩ := walks
      simp [diverges fuel] at walked

instance {q : Query} (config : Config) : Decidable (BlockedContinuation q config) :=
  match config with
  | ⟨search, .diagonal _ d s _⟩ =>
      inferInstanceAs (Decidable (roundForced q search.pre s.pos d = true ∧
        ¬ q.grid.Free (s.moved d).pos ∧ search.pre (s.moved d).pos = none))
  | ⟨_, .pop⟩ => inferInstanceAs (Decidable False)
  | ⟨_, .directions ..⟩ => inferInstanceAs (Decidable False)
  | ⟨_, .horizontal ..⟩ => inferInstanceAs (Decidable False)
  | ⟨_, .vertical ..⟩ => inferInstanceAs (Decidable False)

theorem find_returnsPaths_bend : IsPath bendQuery.grid.Free ⟨0, 0⟩ ⟨0, 3⟩
    [⟨0, 3⟩, ⟨0, 2⟩, ⟨1, 1⟩, ⟨0, 0⟩] := by
  have finds : Finds bendQuery [⟨0, 3⟩, ⟨0, 2⟩, ⟨1, 1⟩, ⟨0, 0⟩] := ⟨30, by decide +kernel⟩
  exact find_returnsPaths bendQuery
    (forall_reaches_of_passes bend_returns bend_keepsFlags)
    (forall_reaches_of_passes bend_returns (by decide +kernel)) _ finds (List.cons_ne_nil _ _)

/-- A map of two by four cells in which a diagonal step finds a forced
neighbour in front of the obstacle (1, 2). -/
def squeezeQuery : Query :=
  Query.ask
    ((((Grid.new 2 4 (by decide) (by decide)).setObstacle ⟨0, 0⟩ true).setObstacle
      ⟨0, 2⟩ true).setObstacle ⟨1, 2⟩ true)
    20 (by decide +kernel) false ⟨0, 1⟩ ⟨0, 3⟩

/-- The path that is found there leads over the obstacle. -/
theorem not_returnsPaths_squeeze : ¬ ReturnsPaths squeezeQuery := by
  intro valid
  have found : find squeezeQuery 60 = some [⟨0, 3⟩, ⟨1, 2⟩, ⟨0, 1⟩] := by
    decide +kernel
  have path := valid _ ⟨60, found⟩ (by simp)
  have line : ClearLine squeezeQuery.grid.Free ⟨0, 3⟩ ⟨1, 2⟩ :=
    (List.isChain_cons_cons.mp path.clear).1
  have blocked : ¬ squeezeQuery.grid.Free ⟨1, 2⟩ := by decide +kernel
  exact blocked line.free_right

end Jps

end LuaServer
