import LuaServer.JpsExpansion

/-!
# Where the jump point search arrives

The search follows every canonical path as long as it goes on from all cells it
meets: from forced neighbours, from the cells where a straight run stops at forced
neighbours, and from the next cell of a diagonal.  It loses a cell it meets when
that cell has been linked before, and was never open for the direction in which it
is met now.
-/

namespace LuaServer

namespace Jps

open GridCell MachineIntegers PredecessorLinks FueledLoops CanonicalGridPaths

section Meeting

variable (q : Query)

/-- What a straight `step` from `p` meets, with the directions to go on in: the forced
neighbours where it stops and, unless the next cell is an obstacle, the cell where it
stops at them. -/
def lineMeets (p d : Pos) : List (Pos × Pos) :=
  if !jumps q p d || checkend q p (jumpEnd q p d) then []
  else if (q.grid.fneig (jumpEnd q p d) d).isEmpty then []
  else
    q.grid.fneig (jumpEnd q p d) d ++
      if q.grid.obstacle (shift (jumpEnd q p d) d) then [] else [(jumpEnd q p d, d)]

/-- The links after both calls of `addfn` in a diagonal round at `p`. -/
def linksRound (links : Pos → Option Pos) (p d : Pos) : Pos → Option Pos :=
  (forcedOffers q.grid p ⟨0, d.y⟩).foldl insertLink (linksBetween q links p d)

/-- What one small step of the search meets. -/
def meets (config : Config) : List (Pos × Pos) :=
  let links := config.search.pre
  match config.phase with
  | .pop => []
  | .directions _ [] => []
  | .directions st (d :: _) => if d.x = 0 ∨ d.y = 0 then lineMeets q st.pos d else []
  | .diagonal _ d s _ =>
      q.grid.fneig s.pos ⟨d.x, 0⟩ ++ q.grid.fneig s.pos ⟨0, d.y⟩ ++
        if q.grid.obstacle (s.moved d).pos then []
        else if roundForced q links s.pos d ||
            (linksRound q links s.pos d (s.moved d).pos).isSome then
          [((s.moved d).pos, d)]
        else []
  | .horizontal _ d s _ => lineMeets q s.pos ⟨d.x, 0⟩
  | .vertical _ d s r1 _ =>
      lineMeets q s.pos ⟨0, d.y⟩ ++
        if q.grid.obstacle (s.moved d).pos then []
        else if r1 || lineReturns q links s.pos ⟨0, d.y⟩ then [((s.moved d).pos, d)]
        else []

/-- A small step meets a cell that is not open at any time for the direction in which it
is met. -/
def Loses (config : Config) : Prop :=
  ∃ entry ∈ meets q config, entry.1 ≠ q.end_ ∧ ¬ Queued q entry.1 entry.2

end Meeting

section Neighbours

variable {g : Grid} {p part side : Pos}

/-- What goes around an obstacle beside a cell is a forced neighbour of the cell. -/
theorem mem_fneig (straight : IsStraight part) (beside : IsBeside side part) (free : g.Free p)
    (blocked : ¬ g.Free (p.advance side 1))
    (target : g.Free (p.advance (part.advance side 1) 1)) :
    (p.advance (part.advance side 1) 1, part.advance side 1) ∈ g.fneig p part := by
  have pInside := (inarea_iff g p).mp free.inarea
  have targetInside := (inarea_iff g _).mp target.inarea
  have sideStep : side.IsStep := by
    rcases beside with rfl | rfl <;> rcases straight with rfl | rfl | rfl | rfl <;> decide
  have sideInside : g.inarea (p.advance side 1) = true := by
    rw [inarea_iff]
    simp only [advance_x, advance_y] at targetInside ⊢
    rcases beside with rfl | rfl <;> rcases straight with rfl | rfl | rfl | rfl <;>
      simp only at targetInside ⊢ <;> omega
  have shifts : shift (shift p side) part = p.advance (part.advance side 1) 1 := by
    rw [shift_eq free.inarea sideStep, shift_eq sideInside straight.isStep, advance_comm,
      advance_step]
  have isObstacle : g.obstacle (shift p side) = true := by
    rw [shift_eq free.inarea sideStep]
    exact not_free_iff.mp blocked
  have isInside : g.inarea (shift p side) = true := by
    rwa [shift_eq free.inarea sideStep]
  have isFree : g.obstacle (shift (shift p side) part) = false := by
    rw [shifts]
    exact target
  rw [← shifts]
  simp only [Grid.fneig, List.mem_append]
  rcases beside with rfl | rfl
  · refine Or.inl ?_
    simp only [isInside, isObstacle, isFree]
    simp [advance]
  · refine Or.inr ?_
    simp only [isInside, isObstacle, isFree]
    simp [advance, sub_eq_add_neg]

end Neighbours

section Searching

variable {q : Query} {config : Config} {p d : Pos}

/-- What a small step offers is not the end, if the end is never popped. -/
theorem Reaches.offers_ne_end (fails : ¬ PopsEnd q) (reaches : Reaches q config)
    {entry : Pos × Pos} (member : entry ∈ offers q config) : entry.1 ≠ q.end_ := by
  intro atEnd
  have notPop : config.phase ≠ .pop := by
    intro popping
    simp [offers, popping] at member
  obtain ⟨after, ticks, reachesAfter⟩ := reaches.ticks notPop
  have unlinked := reachesAfter.end_unlinked fails
  rw [ticks.2.1.pre] at unlinked
  exact (foldl_insertLink_eq_none.mp unlinked).2 entry member atEnd.symm

theorem Reaches.forced_ne_end (fails : ¬ PopsEnd q) (reaches : Reaches q config)
    (offered : ∀ entry ∈ forcedOffers q.grid p d, entry ∈ offers q config)
    {entry : Pos × Pos} (member : entry ∈ q.grid.fneig p d) : entry.1 ≠ q.end_ := by
  have isOffered := offered (entry.1, p) (List.mem_map.mpr ⟨entry, member, rfl⟩)
  exact @Reaches.offers_ne_end q config fails reaches (entry.1, p) isOffered

theorem queued_of_meets (keeps : ∀ config, Reaches q config → ¬ Loses q config)
    (reaches : Reaches q config) {entry : Pos × Pos} (member : entry ∈ meets q config)
    (notEnd : entry.1 ≠ q.end_) : Queued q entry.1 entry.2 := by
  by_contra notQueued
  exact keeps config reaches ⟨entry, member, notEnd, notQueued⟩

/-- A straight direction that is tried is looked along in a small step. -/
theorem Tried.exists_line (straight : IsStraight d) (tried : Tried q p d) :
    ∃ config, Reaches q config ∧
      (∀ entry ∈ lineOffers q config.search.pre p d, entry ∈ offers q config) ∧
      ∀ entry ∈ lineMeets q p d, entry ∈ meets q config := by
  obtain ⟨⟨search, phase⟩, reaches, tries⟩ := tried
  refine ⟨⟨search, phase⟩, reaches, ?_⟩
  have turns := reaches.sound.turns
  cases phase with
  | pop => exact tries.elim
  | directions st dirs =>
      cases dirs with
      | nil => exact tries.elim
      | cons turn dirs =>
          obtain ⟨rfl, rfl⟩ : _ ∧ _ := tries
          have flat : turn.x = 0 ∨ turn.y = 0 := by
            rcases straight with rfl | rfl | rfl | rfl <;> decide
          simp only [offers, meets, if_pos flat]
          exact ⟨fun _ => id, fun _ => id⟩
  | diagonal st turn s dirs =>
      obtain ⟨rfl, rfl⟩ : _ ∧ _ := tries
      have walks : Walks turn s := turns.1
      exact absurd straight (by
        have sideways := walks.sideways
        have upright := walks.upright
        rintro (rfl | rfl | rfl | rfl) <;> simp_all)
  | horizontal st turn s dirs =>
      obtain ⟨rfl, rfl⟩ : _ ∧ _ := tries
      exact ⟨fun _ => id, fun _ => id⟩
  | vertical st turn s r1 dirs =>
      obtain ⟨rfl, rfl⟩ : _ ∧ _ := tries
      exact ⟨fun entry member => List.mem_append.mpr (Or.inl member),
        fun entry member => List.mem_append.mpr (Or.inl member)⟩

theorem Tried.not_checkend (fails : ¬ PopsEnd q) (straight : IsStraight d)
    (tried : Tried q p d) (jumping : jumps q p d = true) :
    checkend q p (jumpEnd q p d) = false := by
  obtain ⟨config, reaches, offered, -⟩ := tried.exists_line straight
  by_contra ended
  have isEnded : checkend q p (jumpEnd q p d) = true := by simpa using ended
  refine reaches.offers_ne_end fails (offered (q.end_, p) ?_) rfl
  simp [lineOffers, jumping, isEnded]

theorem Tried.queued (fails : ¬ PopsEnd q)
    (keeps : ∀ config, Reaches q config → ¬ Loses q config) (straight : IsStraight d)
    (tried : Tried q p d) (jumping : jumps q p d = true) {entry : Pos × Pos}
    (member : entry ∈ lineMeets q p d) : Queued q entry.1 entry.2 := by
  have notEnded := tried.not_checkend fails straight jumping
  obtain ⟨config, reaches, offered, met⟩ := tried.exists_line straight
  apply queued_of_meets keeps reaches (met entry member)
  have forcedOffered : ∀ entry ∈ forcedOffers q.grid (jumpEnd q p d) d,
      entry ∈ offers q config := by
    intro entry isForced
    apply offered
    simp only [lineOffers, jumping, notEnded]
    exact List.mem_append.mpr (Or.inl isForced)
  simp only [lineMeets, jumping, notEnded, Bool.not_true, Bool.or_self, Bool.false_eq_true,
    if_false] at member
  split at member
  · simp at member
  · rcases List.mem_append.mp member with isForced | isStop
    · exact reaches.forced_ne_end fails forcedOffered isForced
    · split at isStop
      · simp at isStop
      · obtain rfl := List.mem_singleton.mp isStop
        intro atEnd
        simp only at atEnd
        simp [checkend, atEnd] at notEnded

theorem exists_jump (straight : IsStraight d) (free : q.grid.Free p) :
    ∃ len : Nat, getcache q.cache p d = len ∧ JumpLength q.grid p d len ∧
      (0 < len → jumps q p d = true ∧ jumpEnd q p d = p.advance d len) := by
  have exactLength := q.cached.jumpLength free.inarea straight
  obtain ⟨len, isLen⟩ : ∃ len : Nat, getcache q.cache p d = len :=
    ⟨(getcache q.cache p d).toNat, by have := exactLength.nonneg; omega⟩
  rw [isLen] at exactLength
  refine ⟨len, isLen, exactLength, fun positive => ?_⟩
  have isFree : q.grid.obstacle p = false := free
  have jumping : jumps q p d = true := by
    simp [jumps, isFree, isLen, positive]
  refine ⟨jumping, ?_⟩
  have range := inMapRange_of_inarea (exactLength.clear len (by omega) le_rfl).inarea
  simp only [InMapRange, advance_x, advance_y] at range
  simp only [jumpEnd, isLen, advance]
  rw [toInt16_of_range (by omega) (by omega), toInt16_of_range (by omega) (by omega)]

theorem checkend_of_between (free : q.grid.Free p) {len count : Nat}
    (lastFree : q.grid.Free (p.advance d len)) (upTo : count ≤ len)
    (endFree : q.grid.Free q.end_) (atEnd : q.end_ = p.advance d count) :
    checkend q p (p.advance d len) = true := by
  have range := inMapRange_of_inarea free.inarea
  have endRange := inMapRange_of_inarea endFree.inarea
  have lastRange := inMapRange_of_inarea lastFree.inarea
  simp only [InMapRange, advance_x, advance_y] at range endRange lastRange
  have endX : q.end_.x = p.x + d.x * count := by rw [atEnd]; rfl
  have endY : q.end_.y = p.y + d.y * count := by rw [atEnd]; rfl
  have rest : (0 : Int) ≤ len - count := by omega
  have acute : ¬ (p.x + d.x * count - p.x) * (p.x + d.x * len - (p.x + d.x * count)) +
      (p.y + d.y * count - p.y) * (p.y + d.y * len - (p.y + d.y * count)) < 0 := by
    have expanded : (p.x + d.x * count - p.x) * (p.x + d.x * len - (p.x + d.x * count)) +
        (p.y + d.y * count - p.y) * (p.y + d.y * len - (p.y + d.y * count)) =
          count * (len - count) * (d.x * d.x + d.y * d.y) := by
      ring
    rw [expanded, not_lt]
    have squares : 0 ≤ d.x * d.x + d.y * d.y :=
      add_nonneg (mul_self_nonneg d.x) (mul_self_nonneg d.y)
    exact mul_nonneg (mul_nonneg (Int.natCast_nonneg count) rest) squares
  simp only [checkend, advance_x, advance_y]
  split
  · rfl
  · have fromX : toInt16 (q.end_.x - p.x) = q.end_.x - p.x :=
      toInt16_of_range (by omega) (by omega)
    have fromY : toInt16 (q.end_.y - p.y) = q.end_.y - p.y :=
      toInt16_of_range (by omega) (by omega)
    have toX : toInt16 (p.x + d.x * len - q.end_.x) = p.x + d.x * len - q.end_.x :=
      toInt16_of_range (by omega) (by omega)
    have toY : toInt16 (p.y + d.y * len - q.end_.y) = p.y + d.y * len - q.end_.y :=
      toInt16_of_range (by omega) (by omega)
    rw [← endX, ← endY] at acute
    simp only [fromX, fromY, toX, toY, if_neg acute, beq_iff_eq]
    rw [endX, endY]
    ring

/-- A diagonal walk comes through the cell, and the cells beside it at the back are
free. -/
def Passed (q : Query) (c d : Pos) : Prop :=
  ∃ search st s dirs, Reaches q ⟨search, .horizontal st d s dirs⟩ ∧ s.pos = c ∧
    q.grid.Free (c.advance ⟨-d.x, 0⟩ 1) ∧ q.grid.Free (c.advance ⟨0, -d.y⟩ 1)

/-- The search comes to a cell by a step in the direction: in a straight run, by opening
the cell for it, or in a diagonal walk. -/
inductive Arrives (q : Query) : Pos → Pos → Prop where
  | straight {p d : Pos} {count : Nat} (straight : IsStraight d) (free : q.grid.Free p)
      (tried : Tried q p d) (positive : 1 ≤ count) (upTo : count ≤ getcache q.cache p d) :
      Arrives q (p.advance d count) d
  | queued {c d : Pos} (sideways : d.x ≠ 0) (upright : d.y ≠ 0) (queued : Queued q c d) :
      Arrives q c d
  | passed {c d : Pos} (passed : Passed q c d) : Arrives q c d

/-- A straight direction that is tried leads to the next cell. -/
theorem Tried.arrives (straight : IsStraight d) (free : q.grid.Free p)
    (next : q.grid.Free (p.advance d 1)) (tried : Tried q p d) :
    Arrives q (p.advance d 1) d := by
  obtain ⟨len, isLen, exactLength, -⟩ := exists_jump straight free
  have positive : 1 ≤ len := by
    rcases exactLength.stops free with blocked | ⟨positive, -⟩
    · by_contra short
      obtain rfl : len = 0 := by omega
      exact blocked (by simpa using next)
    · exact_mod_cast positive
  exact_mod_cast Arrives.straight straight free tried (le_refl 1) (by rw [isLen]; omega)

/-- Where a straight run goes on or turns, its cell is the last one of the run or the run
goes on through it. -/
theorem lineMeets_of_stop (straight : IsStraight d) (free : q.grid.Free p) {len : Nat}
    (positive : 0 < len) (isLen : getcache q.cache p d = len)
    (forced : q.grid.fneig (p.advance d len) d ≠ [])
    (notEnded : checkend q p (p.advance d len) = false) :
    (∀ entry ∈ q.grid.fneig (p.advance d len) d, entry ∈ lineMeets q p d) ∧
      (q.grid.Free ((p.advance d len).advance d 1) → (p.advance d len, d) ∈ lineMeets q p d) := by
  obtain ⟨other, isOther, exactLength, jump⟩ := exists_jump straight free
  obtain rfl : other = len := by exact_mod_cast isOther.symm.trans isLen
  obtain ⟨jumping, atEnd⟩ := jump positive
  have lastFree := exactLength.clear other (by omega) le_rfl
  have shifts := shift_eq lastFree.inarea straight.isStep
  have notEmpty : (q.grid.fneig (p.advance d other) d).isEmpty = false := by
    simpa using forced
  simp only [lineMeets, atEnd, jumping, notEnded, notEmpty, shifts, Bool.not_true, Bool.or_self,
    Bool.false_eq_true, if_false]
  refine ⟨fun entry member => List.mem_append.mpr (Or.inl member), fun next => ?_⟩
  have nextFree : q.grid.obstacle ((p.advance d other).advance d 1) = false := next
  simp [nextFree]

theorem eq_of_isPart {part : Pos} (straight : IsStraight d) (isPart : IsPart part d) :
    part = d := by
  obtain ⟨nonzero, rfl | rfl⟩ := isPart <;> rcases straight with rfl | rfl | rfl | rfl <;>
    simp_all

theorem diagonal_of_isBeside {part side : Pos} (straight : IsStraight part)
    (beside : IsBeside side part) :
    (part.advance side 1).x ≠ 0 ∧ (part.advance side 1).y ≠ 0 := by
  rcases beside with rfl | rfl <;> rcases straight with rfl | rfl | rfl | rfl <;> decide

theorem isStraight_of_isPart {part : Pos} (direction : d ∈ directions) (isPart : IsPart part d) :
    IsStraight part := by
  have all : ∀ d ∈ directions, (⟨d.x, 0⟩ = (⟨0, 0⟩ : Pos) ∨ IsStraight ⟨d.x, 0⟩) ∧
      (⟨0, d.y⟩ = (⟨0, 0⟩ : Pos) ∨ IsStraight ⟨0, d.y⟩) := by
    simp only [IsStraight]
    decide
  obtain ⟨nonzero, rfl | rfl⟩ := isPart
  · exact (all d direction).1.resolve_left nonzero
  · exact (all d direction).2.resolve_left nonzero

/-- A diagonal round goes on where the next cell is free, not linked, and nothing is
forced. -/
theorem tick_diagonal {search : Search} {st s : State} {dirs : List Pos} {after : Config}
    (walks : Walks d s) (notEnd : (s.moved d).pos ≠ q.end_) (free : q.grid.Free (s.moved d).pos)
    (ticked : tick q ⟨search, .diagonal st d s dirs⟩ = .inl after) :
    roundForced q search.pre s.pos d = true ∨
      (linksRound q search.pre s.pos d (s.moved d).pos).isSome = true ∨
        after.phase = .horizontal st d ((s.moved d).paid HWEI) dirs := by
  obtain ⟨offered1, flag1⟩ := addfn_spec q
    (walks.direction.horizontal walks.sideways) search s
  obtain ⟨offered2, flag2⟩ := addfn_spec q
    (walks.direction.vertical walks.upright) (addfn q search s ⟨d.x, 0⟩).1 s
  have flags : ((addfn q search s ⟨d.x, 0⟩).2 ||
      (addfn q (addfn q search s ⟨d.x, 0⟩).1 s ⟨0, d.y⟩).2) =
        roundForced q search.pre s.pos d := by
    rw [flag1, flag2, offered1.pre]
    rfl
  have links : (addfn q (addfn q search s ⟨d.x, 0⟩).1 s ⟨0, d.y⟩).1.pre =
      linksRound q search.pre s.pos d := by
    rw [offered2.pre, offered1.pre]
    rfl
  have isFree : ¬ q.grid.obstacle ((s.moved d).paid HWEI).pos = true :=
    ne_true_of_eq_false free
  by_cases forced : roundForced q search.pre s.pos d = true
  · exact Or.inl forced
  · refine Or.inr ?_
    simp only [tick, flags] at ticked
    rw [if_neg forced, if_neg (show ¬ ((s.moved d).paid HWEI).pos = q.end_ from notEnd),
      if_neg isFree] at ticked
    by_cases linked : (linksRound q search.pre s.pos d (s.moved d).pos).isSome = true
    · exact Or.inl linked
    · refine Or.inr ?_
      rw [links, if_neg (show ¬ (linksRound q search.pre s.pos d
        ((s.moved d).paid HWEI).pos).isSome = true from linked)] at ticked
      obtain rfl := Sum.inl.inj ticked
      rfl

theorem isBeside_parts (direction : d ∈ directions) (sideways : d.x ≠ 0) (upright : d.y ≠ 0) :
    IsBeside ⟨0, d.y⟩ ⟨d.x, 0⟩ ∧ IsBeside ⟨d.x, 0⟩ ⟨0, d.y⟩ := by
  have all : ∀ d ∈ directions, d.x ≠ 0 → d.y ≠ 0 →
      IsBeside ⟨0, d.y⟩ ⟨d.x, 0⟩ ∧ IsBeside ⟨d.x, 0⟩ ⟨0, d.y⟩ := by decide
  exact all d direction sideways upright

/-- What is beside a part of a diagonal direction is the other part, or lies at the back. -/
theorem side_of_isBeside {part side : Pos} (direction : d ∈ directions) (sideways : d.x ≠ 0)
    (upright : d.y ≠ 0) (isPart : IsPart part d) (beside : IsBeside side part) :
    part.advance side 1 = d ∨ side = ⟨-d.x, 0⟩ ∨ side = ⟨0, -d.y⟩ := by
  have diagonals : ∀ d ∈ directions, d.x ≠ 0 → d.y ≠ 0 →
      d = ⟨1, 1⟩ ∨ d = ⟨1, -1⟩ ∨ d = ⟨-1, 1⟩ ∨ d = ⟨-1, -1⟩ := by decide
  rcases isPart.2 with rfl | rfl <;> rcases beside with rfl | rfl <;>
    rcases diagonals d direction sideways upright with rfl | rfl | rfl | rfl <;> decide

theorem Walks.mem_directions {s : State} (walks : Walks d s) : d ∈ directions :=
  GridCell.mem_directions.mpr ⟨walks.direction.isStep, by
    rintro rfl
    exact walks.sideways rfl⟩

/-- A state that is open for a diagonal direction is open for its parts. -/
theorem part_mem_dirs {st : State} {part : Pos} (sideways : d.x ≠ 0) (upright : d.y ≠ 0)
    (isPart : IsPart part d) (member : d ∈ dirs st) : part ∈ dirs st := by
  simp only [dirs] at member ⊢
  split at member
  next atStart =>
    rw [if_pos atStart]
    have parts : ∀ d ∈ directions, (⟨d.x, 0⟩ = (⟨0, 0⟩ : Pos) ∨ ⟨d.x, 0⟩ ∈ directions) ∧
        (⟨0, d.y⟩ = (⟨0, 0⟩ : Pos) ∨ ⟨0, d.y⟩ ∈ directions) := by decide
    obtain ⟨nonzero, rfl | rfl⟩ := isPart
    · exact (parts d member).1.resolve_left nonzero
    · exact (parts d member).2.resolve_left nonzero
  next notAtStart =>
    rw [if_neg notAtStart]
    split at member
    next diagonal =>
      rw [if_pos diagonal]
      simp only [List.mem_cons, List.not_mem_nil, or_false] at member
      rcases member with rfl | rfl | rfl
      · exact absurd rfl upright
      · exact absurd rfl sideways
      · rcases isPart.2 with rfl | rfl <;> simp
    next straight =>
      obtain rfl := List.mem_singleton.mp member
      exact absurd ⟨sideways, upright⟩ straight

theorem Queued.part {c part : Pos} (sideways : d.x ≠ 0) (upright : d.y ≠ 0)
    (isPart : IsPart part d) (queued : Queued q c d) : Queued q c part := by
  obtain ⟨config, reaches, st, isOpen, atCell, member⟩ := queued
  exact ⟨config, reaches, st, isOpen, atCell, part_mem_dirs sideways upright isPart member⟩

theorem Tried.exists_round {c : Pos} (sideways : d.x ≠ 0) (upright : d.y ≠ 0)
    (tried : Tried q c d) :
    ∃ search st s dirs, Reaches q ⟨search, .diagonal st d s dirs⟩ ∧ s.pos = c := by
  obtain ⟨⟨search, phase⟩, reaches, tries⟩ := tried
  cases phase with
  | pop => exact tries.elim
  | directions st dirs =>
      cases dirs with
      | nil => exact tries.elim
      | cons turn dirs =>
          obtain ⟨rfl, rfl⟩ : _ ∧ _ := tries
          obtain ⟨⟨afterSearch, phase⟩, ⟨-, -, follows⟩, reachesAfter⟩ := reaches.ticks (by simp)
          have notFlat : ¬ (turn.x = 0 ∨ turn.y = 0) := by simp [sideways, upright]
          simp only [Follows, if_neg notFlat] at follows
          subst follows
          exact ⟨_, _, _, _, reachesAfter, rfl⟩
  | diagonal st turn s dirs =>
      obtain ⟨rfl, rfl⟩ : _ ∧ _ := tries
      exact ⟨_, _, _, _, reaches, rfl⟩
  | horizontal st turn s dirs =>
      obtain ⟨rfl, rfl⟩ : _ ∧ _ := tries
      exact absurd rfl upright
  | vertical st turn s r1 dirs =>
      obtain ⟨rfl, rfl⟩ : _ ∧ _ := tries
      exact absurd rfl sideways

section Steps

variable (fails : ¬ PopsEnd q) (keeps : ∀ config, Reaches q config → ¬ Loses q config)

include fails keeps

theorem arrives_straight {count : Nat} {v : Pos} (straight : IsStraight d) (free : q.grid.Free p)
    (tried : Tried q p d) (positive : 1 ≤ count) (upTo : count ≤ getcache q.cache p d)
    (next : q.grid.Free ((p.advance d count).advance v 1))
    (follows : MayFollow q.grid.Free (p.advance d count) d v) :
    Arrives q ((p.advance d count).advance v 1) v := by
  obtain ⟨len, isLen, exactLength, jump⟩ := exists_jump straight free
  obtain ⟨jumping, atEnd⟩ := jump (by omega)
  have inside : count ≤ len := by omega
  have cellFree := exactLength.clear count (by omega) (by omega)
  have notEnded := tried.not_checkend fails straight jumping
  rw [atEnd] at notEnded
  have goesOn : v = d → Arrives q ((p.advance d count).advance v 1) v := by
    rintro rfl
    by_cases last : count = len
    · subst last
      have forced : q.grid.fneig (p.advance v count) v ≠ [] := by
        rcases exactLength.stops free with blocked | ⟨-, forced⟩
        · rw [advance_advance] at next
          exact absurd next blocked
        · exact forced
      have met := (lineMeets_of_stop straight free positive isLen forced notEnded).2 next
      have queued := tried.queued fails keeps straight jumping met
      exact (queued.tried fails).arrives straight cellFree next
    · have further := Arrives.straight straight free tried (Nat.le_add_left 1 count)
        (by rw [isLen]; exact_mod_cast Nat.lt_of_le_of_ne inside last)
      rw [advance_advance]
      exact_mod_cast further
  rcases follows with same | isPart | ⟨part, side, isPart, beside, rfl, blocked⟩
  · exact goesOn same
  · exact goesOn (eq_of_isPart straight isPart)
  · obtain rfl := eq_of_isPart straight isPart
    have member := mem_fneig straight beside cellFree blocked next
    have forced : q.grid.fneig (p.advance part count) part ≠ [] := List.ne_nil_of_mem member
    obtain rfl : count = len := by
      by_contra notLast
      exact forced (exactLength.unforced count (by omega) (by omega))
    have met := (lineMeets_of_stop straight free positive isLen forced notEnded).1 _ member
    obtain ⟨sideways, upright⟩ := diagonal_of_isBeside straight beside
    exact .queued sideways upright (tried.queued fails keeps straight jumping met)

section Round

variable {search : Search} {st s : State} {dirs : List Pos}
  (reaches : Reaches q ⟨search, .diagonal st d s dirs⟩)

include reaches

theorem queued_of_round {part : Pos} (isPart : IsPart part d) {entry : Pos × Pos}
    (member : entry ∈ q.grid.fneig s.pos part) : Queued q entry.1 entry.2 := by
  have offered : ∀ entry ∈ forcedOffers q.grid s.pos part,
      entry ∈ offers q ⟨search, .diagonal st d s dirs⟩ := by
    intro entry isForced
    rcases isPart.2 with rfl | rfl
    · exact List.mem_append.mpr (Or.inl (List.mem_append.mpr (Or.inl isForced)))
    · exact List.mem_append.mpr (Or.inl (List.mem_append.mpr (Or.inr isForced)))
  apply queued_of_meets keeps reaches _ (reaches.forced_ne_end fails offered member)
  rcases isPart.2 with rfl | rfl
  · exact List.mem_append.mpr (Or.inl (List.mem_append.mpr (Or.inl member)))
  · exact List.mem_append.mpr (Or.inl (List.mem_append.mpr (Or.inr member)))

/-- A diagonal round comes to the next cell. -/
theorem arrives_of_round (free : q.grid.Free s.pos) (next : q.grid.Free (s.pos.advance d 1)) :
    Arrives q (s.pos.advance d 1) d := by
  have walks : Walks d s := reaches.sound.turns.1
  have moves : (s.moved d).pos = s.pos.advance d 1 :=
    shift_eq free.inarea walks.direction.isStep
  obtain ⟨after, ticks, reachesAfter⟩ := reaches.ticks (by simp)
  have notEnd : (s.moved d).pos ≠ q.end_ := by
    intro atEnd
    have offered : ((s.moved d).pos, st.pos) ∈ offers q ⟨search, .diagonal st d s dirs⟩ := by
      simp only [offers, List.mem_append, atEnd, if_true]
      refine Or.inr ?_
      split <;> simp
    exact absurd atEnd (@Reaches.offers_ne_end q _ fails reaches ((s.moved d).pos, st.pos) offered)
  have nextFree : q.grid.obstacle (s.moved d).pos = false := by
    rw [moves]
    exact next
  have queued : (roundForced q search.pre s.pos d ||
      (linksRound q search.pre s.pos d (s.moved d).pos).isSome) = true →
        Arrives q (s.pos.advance d 1) d := by
    intro stops
    have met : ((s.moved d).pos, d) ∈ meets q ⟨search, .diagonal st d s dirs⟩ := by
      simp only [meets, nextFree, stops]
      simp
    rw [← moves]
    exact .queued walks.sideways walks.upright (queued_of_meets keeps reaches met notEnd)
  rcases tick_diagonal walks notEnd nextFree ticks.1 with forced | linked | goesOn
  · exact queued (by simp [forced])
  · exact queued (by simp [linked])
  · have unlinked : after.search.pre (s.moved d).pos = none := by
      rcases ticks.2.2 with turned | ⟨-, -, -, -, unlinked⟩
      · exact absurd (goesOn.symm.trans turned) (by simp)
      · exact unlinked
    -- An obstacle beside the way would have forced the next cell.
    have sideFree : ∀ part side, IsPart part d → IsBeside side part → part.advance side 1 = d →
        q.grid.Free (s.pos.advance side 1) := by
      intro part side isPart beside isFront
      by_contra blocked
      have member := mem_fneig (isStraight_of_isPart walks.mem_directions isPart) beside free
        blocked (by rwa [isFront])
      rw [isFront] at member
      have offered : (s.pos.advance d 1, s.pos) ∈ offers q ⟨search, .diagonal st d s dirs⟩ := by
        have isForced : (s.pos.advance d 1, s.pos) ∈ forcedOffers q.grid s.pos part :=
          List.mem_map.mpr ⟨_, member, rfl⟩
        rcases isPart.2 with rfl | rfl
        · exact List.mem_append.mpr (Or.inl (List.mem_append.mpr (Or.inl isForced)))
        · exact List.mem_append.mpr (Or.inl (List.mem_append.mpr (Or.inr isForced)))
      rw [ticks.2.1.pre, moves] at unlinked
      exact (foldl_insertLink_eq_none.mp unlinked).2 _ offered rfl
    obtain ⟨besideX, besideY⟩ :=
      isBeside_parts walks.mem_directions walks.sideways walks.upright
    have atX : ((s.pos.advance d 1).advance ⟨-d.x, 0⟩ 1) = s.pos.advance ⟨0, d.y⟩ 1 := by
      ext <;> simp
    have atY : ((s.pos.advance d 1).advance ⟨0, -d.y⟩ 1) = s.pos.advance ⟨d.x, 0⟩ 1 := by
      ext <;> simp
    obtain ⟨afterSearch, phase⟩ := after
    simp only at goesOn
    subst goesOn
    refine .passed ⟨afterSearch, st, _, dirs, reachesAfter, moves, ?_, ?_⟩
    · rw [atX]
      exact sideFree ⟨d.x, 0⟩ ⟨0, d.y⟩ ⟨by simpa using walks.sideways, Or.inl rfl⟩ besideX
        (by ext <;> simp)
    · rw [atY]
      exact sideFree ⟨0, d.y⟩ ⟨d.x, 0⟩ ⟨by simpa using walks.upright, Or.inr rfl⟩ besideY
        (by ext <;> simp)

end Round

theorem arrives_queued {c v : Pos} (direction : d ∈ directions) (sideways : d.x ≠ 0)
    (upright : d.y ≠ 0) (queued : Queued q c d) (free : q.grid.Free c)
    (next : q.grid.Free (c.advance v 1)) (follows : MayFollow q.grid.Free c d v) :
    Arrives q (c.advance v 1) v := by
  obtain ⟨search, st, s, dirs, reaches, rfl⟩ := (queued.tried fails).exists_round sideways upright
  rcases follows with rfl | isPart | ⟨part, side, isPart, beside, rfl, blocked⟩
  · exact arrives_of_round fails keeps reaches free next
  · have partQueued := queued.part sideways upright isPart
    exact (partQueued.tried fails).arrives (isStraight_of_isPart direction isPart) free next
  · have straight := isStraight_of_isPart direction isPart
    have member := mem_fneig straight beside free blocked next
    obtain ⟨aside, upwards⟩ := diagonal_of_isBeside straight beside
    exact .queued aside upwards (queued_of_round fails keeps reaches isPart member)

theorem arrives_passed {c v : Pos} (passed : Passed q c d) (free : q.grid.Free c)
    (next : q.grid.Free (c.advance v 1)) (follows : MayFollow q.grid.Free c d v) :
    Arrives q (c.advance v 1) v := by
  obtain ⟨search, st, s, dirs, reaches, rfl, backX, backY⟩ := passed
  have walks : Walks d s := reaches.sound.turns.1
  have moves : (s.moved d).pos = s.pos.advance d 1 :=
    shift_eq free.inarea walks.direction.isStep
  obtain ⟨⟨searchVertical, phase⟩, ⟨-, -, isVertical⟩, reachesVertical⟩ := reaches.ticks (by simp)
  simp only [Follows] at isVertical
  subst isVertical
  have goesOn : q.grid.Free (s.pos.advance d 1) → Arrives q (s.pos.advance d 1) d := by
    intro next
    have nextFree : q.grid.obstacle (s.moved d).pos = false := by
      rw [moves]
      exact next
    obtain ⟨⟨searchNext, phase⟩, ⟨-, -, follows⟩, reachesNext⟩ := reachesVertical.ticks (by simp)
    rcases follows with ⟨returned, -⟩ | ⟨-, isRound⟩
    · have offered : ((s.moved d).pos, st.pos) ∈ offers q
          ⟨searchVertical, .vertical st d s (lineReturns q search.pre s.pos ⟨d.x, 0⟩) dirs⟩ := by
        simp only [offers, returned, nextFree]
        simp
      have met : ((s.moved d).pos, d) ∈ meets q
          ⟨searchVertical, .vertical st d s (lineReturns q search.pre s.pos ⟨d.x, 0⟩) dirs⟩ := by
        simp only [meets, returned, nextFree]
        simp
      have notEnd := reachesVertical.offers_ne_end fails offered
      rw [← moves]
      exact .queued walks.sideways walks.upright (queued_of_meets keeps reachesVertical met notEnd)
    · subst isRound
      exact arrives_of_round fails keeps reachesNext free next
  rcases follows with rfl | isPart | ⟨part, side, isPart, beside, rfl, blocked⟩
  · exact goesOn next
  · have straight := isStraight_of_isPart walks.mem_directions isPart
    rcases isPart.2 with rfl | rfl
    · exact Tried.arrives straight free next ⟨_, reaches, rfl, rfl⟩
    · exact Tried.arrives straight free next ⟨_, reachesVertical, rfl, rfl⟩
  · rcases side_of_isBeside walks.mem_directions walks.sideways walks.upright isPart beside with
      isFront | rfl | rfl
    · rw [isFront] at next ⊢
      exact goesOn next
    · exact absurd backX blocked
    · exact absurd backY blocked

/-- The search goes on from where it arrives by every step that may follow. -/
theorem Arrives.follow {c v : Pos} (arrives : Arrives q c d) (direction : d ∈ directions)
    (free : q.grid.Free c) (next : q.grid.Free (c.advance v 1))
    (follows : MayFollow q.grid.Free c d v) : Arrives q (c.advance v 1) v := by
  cases arrives with
  | straight straight startFree tried positive upTo =>
      exact arrives_straight fails keeps straight startFree tried positive upTo next follows
  | queued sideways upright queued =>
      exact arrives_queued fails keeps direction sideways upright queued free next follows
  | passed passed => exact arrives_passed fails keeps passed free next follows

/-- The search arrives at the end of every canonical path. -/
theorem Arrives.along {c e : Pos} {steps : List Pos} (arrives : Arrives q (c.advance d 1) d)
    (direction : d ∈ directions) (free : q.grid.Free (c.advance d 1))
    (leads : Leads q.grid.Free (c.advance d 1) steps e)
    (canonical : Canonical q.grid.Free c (d :: steps)) : ∃ last, Arrives q e last := by
  induction steps generalizing c d with
  | nil =>
      obtain rfl : _ = e := leads
      exact ⟨d, arrives⟩
  | cons v steps ih =>
      obtain ⟨isDirection, next, rest⟩ := leads
      obtain ⟨follows, canonicalRest⟩ := canonical
      exact ih (arrives.follow fails keeps direction free next follows) isDirection next rest
        canonicalRest

/-- From the start the search arrives at every neighbour. -/
theorem arrives_first {v : Pos} (searches : Searches q) (direction : v ∈ directions)
    (next : q.grid.Free (q.start_.advance v 1)) : Arrives q (q.start_.advance v 1) v := by
  obtain ⟨isStep, nonzero⟩ := GridCell.mem_directions.mp direction
  have isDirection : IsDirection v := by
    refine ⟨isStep, ?_⟩
    by_contra zero
    push Not at zero
    exact nonzero (GridCell.ext zero.1 zero.2)
  have tried := tried_start fails searches isDirection
  by_cases flat : v.x = 0 ∨ v.y = 0
  · exact tried.arrives (isDirection.straight flat) searches.startFree next
  · obtain ⟨sideways, upright⟩ := not_or.mp flat
    obtain ⟨search, st, s, dirs, reaches, atStart⟩ := tried.exists_round sideways upright
    rw [← atStart] at next ⊢
    exact arrives_of_round fails keeps reaches (atStart ▸ searches.startFree) next

omit keeps in
/-- The search does not arrive at an end it never pops. -/
theorem not_arrives_end (searches : Searches q) : ¬ Arrives q q.end_ d := by
  intro arrives
  generalize atEnd : q.end_ = e at arrives
  cases arrives with
  | @straight p d count straight free tried positive upTo =>
      obtain ⟨len, isLen, exactLength, jump⟩ := exists_jump straight free
      rw [isLen] at upTo
      obtain ⟨jumping, last⟩ := jump (by omega)
      have notEnded := tried.not_checkend fails straight jumping
      rw [last, checkend_of_between free (exactLength.clear len (by omega) le_rfl)
        (by omega) searches.endFree atEnd] at notEnded
      simp at notEnded
  | queued sideways upright queued =>
      obtain ⟨config, reaches, st, isOpen, atCell, -⟩ := queued
      rcases reaches.queue.1.opened st isOpen with isStart | linked
      · exact searches.different (isStart.symm.trans (atCell.trans atEnd.symm))
      · rw [atCell, ← atEnd, reaches.end_unlinked fails] at linked
        simp at linked
  | passed passed =>
      obtain ⟨search, st, s, dirs, reaches, atCell, -⟩ := passed
      exact reaches.queue.2.2 (atCell.trans atEnd.symm)

end Steps

end Searching

end Jps

end LuaServer
