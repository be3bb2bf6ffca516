import LuaServer.JpsLineCache
import LuaServer.JpsSearch

/-!
# What a step of the jump point search offers to its predecessor map

Every step of the search offers some predecessor links to `pre_`, which takes
those whose position has none yet.  Which links a step offers depends on the
map and on `pre_` alone.  The lists of offers given here abstract from the
open list, the weights and the costs, and every step of the machine is shown
to record exactly its offers.
-/

namespace LuaServer

namespace Jps

open GridCell MachineIntegers PredecessorLinks OrderedMultisets FueledLoops

/-- A step in one of the eight directions. -/
structure IsDirection (d : Pos) : Prop where
  isStep : d.IsStep
  nonzero : d.x ≠ 0 ∨ d.y ≠ 0

theorem IsDirection.straight {d : Pos} (direction : IsDirection d)
    (flat : d.x = 0 ∨ d.y = 0) : IsStraight d := by
  obtain ⟨⟨xGe, xLe, yGe, yLe⟩, nonzero⟩ := direction
  obtain ⟨x, y⟩ := d
  simp only [IsStraight, GridCell.mk.injEq] at *
  omega

theorem IsDirection.horizontal {d : Pos} (direction : IsDirection d)
    (turned : d.x ≠ 0) : IsStraight ⟨d.x, 0⟩ := by
  obtain ⟨xGe, xLe, -, -⟩ := direction.isStep
  have sides : d.x = -1 ∨ d.x = 1 := by omega
  rcases sides with side | side <;> simp [IsStraight, side]

theorem IsDirection.vertical {d : Pos} (direction : IsDirection d)
    (turned : d.y ≠ 0) : IsStraight ⟨0, d.y⟩ := by
  obtain ⟨-, -, yGe, yLe⟩ := direction.isStep
  have sides : d.y = -1 ∨ d.y = 1 := by omega
  rcases sides with side | side <;> simp [IsStraight, side]

theorem isDirection_of_mem_dirs {st : State} {d : Pos}
    (turned : IsStep ⟨st.dx, st.dy⟩) (member : d ∈ dirs st) : IsDirection d := by
  obtain ⟨xGe, xLe, yGe, yLe⟩ := turned
  simp only at xGe xLe yGe yLe
  have dxExact : toInt8 st.dx = st.dx := by
    apply Int.bmod_eq_of_le <;> norm_num <;> omega
  have dyExact : toInt8 st.dy = st.dy := by
    apply Int.bmod_eq_of_le <;> norm_num <;> omega
  simp only [dirs, dxExact, dyExact] at member
  split at member
  next =>
    have all : ∀ d ∈ ([⟨0, 1⟩, ⟨0, -1⟩, ⟨1, 0⟩, ⟨-1, 0⟩, ⟨1, 1⟩, ⟨1, -1⟩, ⟨-1, 1⟩,
        ⟨-1, -1⟩] : List Pos), d.IsStep ∧ (d.x ≠ 0 ∨ d.y ≠ 0) := by decide
    exact ⟨(all d member).1, (all d member).2⟩
  next =>
    split at member
    · simp only [List.mem_cons, List.not_mem_nil, or_false] at member
      rcases member with rfl | rfl | rfl <;> refine ⟨?_, ?_⟩ <;>
        simp only [IsStep] <;> omega
    · simp only [List.mem_cons, List.not_mem_nil, or_false] at member
      subst d
      refine ⟨?_, ?_⟩ <;> simp only [IsStep] <;> omega

section Neighbours

variable {g : Grid} {p d : Pos} {links : Pos → Option Pos}

/-- The forced neighbours of `p`, offered `p` as their predecessor. -/
def forcedOffers (g : Grid) (p d : Pos) : List (Pos × Pos) :=
  (g.fneig p d).map fun neighbour => (neighbour.1, p)

/-- The last forced neighbour of `p` has no predecessor: `addfn` returns true. -/
def lastNew (g : Grid) (links : Pos → Option Pos) (p d : Pos) : Bool :=
  match (g.fneig p d).getLast? with
  | none => false
  | some neighbour => (links neighbour.1).isNone

/-- Of two forced neighbours the first has no predecessor, but the last has:
the flag of the first is overwritten by that of the last. -/
def Overwrites (g : Grid) (links : Pos → Option Pos) (p d : Pos) : Prop :=
  ∃ first last, g.fneig p d = [first, last] ∧ links first.1 = none ∧
    links last.1 ≠ none

theorem fneig_length (g : Grid) (p d : Pos) : (g.fneig p d).length ≤ 2 := by
  simp only [Grid.fneig]
  split <;> split <;> simp

theorem fneig_free {neighbour : Pos × Pos} (member : neighbour ∈ g.fneig p d) :
    g.Free neighbour.1 := by
  simp only [Grid.fneig, List.mem_append] at member
  rcases member with first | last
  · split at first
    · simp_all [Grid.Free]
    · simp at first
  · split at last
    · simp_all [Grid.Free]
    · simp at last

theorem toInt16_emod (value : Int) : toInt16 value % 65536 = value % 65536 := by
  have reduced := Int.bmod_emod (x := value) (m := 2 ^ 16)
  norm_num at reduced
  exact reduced

theorem fneig_ne (straight : IsStraight d) {first last : Pos × Pos}
    (forced : g.fneig p d = [first, last]) : first.1 ≠ last.1 := by
  simp only [Grid.fneig] at forced
  split at forced <;> split at forced <;> simp at forced
  obtain ⟨rfl, rfl⟩ := forced
  intro same
  simp only [shift, GridCell.mk.injEq] at same
  have sameX := congrArg (· % 65536) same.1
  have sameY := congrArg (· % 65536) same.2
  simp only [toInt16_emod] at sameX sameY
  have plusY := toInt16_emod (p.x + d.y)
  have minusY := toInt16_emod (p.x + -d.y)
  have plusX := toInt16_emod (p.y + d.x)
  have minusX := toInt16_emod (p.y + -d.x)
  rcases straight with rfl | rfl | rfl | rfl <;>
    simp only at sameX sameY plusX plusY minusX minusY <;> omega

/-- The direction handed on with a forced neighbour is a step, and the
neighbour is one step away. -/
theorem fneig_step (straight : IsStraight d) {neighbour : Pos × Pos}
    (member : neighbour ∈ g.fneig p d) : neighbour.2.IsStep := by
  simp only [Grid.fneig, List.mem_append] at member
  rcases member with first | last
  · split at first
    · obtain rfl := List.mem_singleton.mp first
      rcases straight with rfl | rfl | rfl | rfl <;> simp [IsStep]
    · simp at first
  · split at last
    · obtain rfl := List.mem_singleton.mp last
      rcases straight with rfl | rfl | rfl | rfl <;> simp [IsStep]
    · simp at last

/-- When the flag is lost although a neighbour was new, it was overwritten. -/
theorem overwrites_of_not_lastNew (notLast : lastNew g links p d = false)
    {neighbour : Pos × Pos} (member : neighbour ∈ g.fneig p d)
    (unlinked : links neighbour.1 = none) : Overwrites g links p d := by
  have short := fneig_length g p d
  simp only [lastNew] at notLast
  match forced : g.fneig p d, short with
  | [], _ => simp [forced] at member
  | [only], _ =>
      rw [forced] at member notLast
      obtain rfl := List.mem_singleton.mp member
      simp [unlinked] at notLast
  | [first, last], _ =>
      rw [forced] at member notLast
      simp only [List.getLast?_cons_cons, List.getLast?_singleton] at notLast
      have linked : links last.1 ≠ none := by
        intro absent
        simp [absent] at notLast
      rcases List.mem_pair.mp member with rfl | rfl
      · exact ⟨neighbour, last, forced, unlinked, linked⟩
      · exact absurd unlinked linked

end Neighbours

section Offers

variable (q : Query)

/-- Where a straight `step` from `p` jumps to. -/
def jumpEnd (p d : Pos) : Pos :=
  let len := getcache q.cache p d
  ⟨toInt16 (p.x + d.x * len), toInt16 (p.y + d.y * len)⟩

/-- A straight `step` from `p` jumps over at least one cell. -/
def jumps (p d : Pos) : Bool :=
  !q.grid.obstacle p && decide (0 < getcache q.cache p d)

/-- The links a straight `step` from `p` offers. -/
def lineOffers (links : Pos → Option Pos) (p d : Pos) : List (Pos × Pos) :=
  if !jumps q p d then []
  else if checkend q p (jumpEnd q p d) then [(q.end_, p)]
  else
    forcedOffers q.grid (jumpEnd q p d) d ++
      if lastNew q.grid links (jumpEnd q p d) d then [(jumpEnd q p d, p)] else []

/-- What a straight `step` from `p` returns. -/
def lineReturns (links : Pos → Option Pos) (p d : Pos) : Bool :=
  jumps q p d &&
    (checkend q p (jumpEnd q p d) || lastNew q.grid links (jumpEnd q p d) d)

/-- The links after the first `addfn` of a diagonal round at `p`. -/
def linksBetween (links : Pos → Option Pos) (p d : Pos) : Pos → Option Pos :=
  (forcedOffers q.grid p ⟨d.x, 0⟩).foldl insertLink links

/-- `b1 || b2` in a diagonal round at `p`. -/
def roundForced (links : Pos → Option Pos) (p d : Pos) : Bool :=
  lastNew q.grid links p ⟨d.x, 0⟩ ||
    lastNew q.grid (linksBetween q links p d) p ⟨0, d.y⟩

/-- The links one small step of the search offers. -/
def offers (config : Config) : List (Pos × Pos) :=
  let links := config.search.pre
  match config.phase with
  | .pop => []
  | .directions _ [] => []
  | .directions st (d :: _) =>
      if d.x = 0 ∨ d.y = 0 then lineOffers q links st.pos d else []
  | .diagonal st d s _ =>
      forcedOffers q.grid s.pos ⟨d.x, 0⟩ ++ forcedOffers q.grid s.pos ⟨0, d.y⟩ ++
        if roundForced q links s.pos d then
          (if s.pos = st.pos then [] else [(s.pos, st.pos)]) ++
            [((s.moved d).pos, st.pos)]
        else if (s.moved d).pos = q.end_ then [((s.moved d).pos, st.pos)]
        else []
  | .horizontal _ d s _ => lineOffers q links s.pos ⟨d.x, 0⟩
  | .vertical st d s r1 _ =>
      lineOffers q links s.pos ⟨0, d.y⟩ ++
        if r1 || lineReturns q links s.pos ⟨0, d.y⟩ then
          (s.pos, st.pos) ::
            if q.grid.obstacle (s.moved d).pos then []
            else [((s.moved d).pos, st.pos)]
        else []

variable {q} {search : Search} {st s : State} {d : Pos} {dirs : List Pos} {entry : Pos × Pos}

theorem mem_directions_offers (member : entry ∈ offers q ⟨search, .directions st dirs⟩) :
    ∃ d ∈ dirs, (d.x = 0 ∨ d.y = 0) ∧ entry ∈ lineOffers q search.pre st.pos d := by
  cases dirs with
  | nil => simp [offers] at member
  | cons d dirs =>
      simp only [offers] at member
      split at member
      next flat => exact ⟨d, List.mem_cons_self, flat, member⟩
      next => simp at member

/-- The links a diagonal round at `s` offers, all told. -/
theorem mem_diagonal_offers (member : entry ∈ offers q ⟨search, .diagonal st d s dirs⟩) :
    entry ∈ forcedOffers q.grid s.pos ⟨d.x, 0⟩ ∨ entry ∈ forcedOffers q.grid s.pos ⟨0, d.y⟩ ∨
      entry = (s.pos, st.pos) ∨ entry = ((s.moved d).pos, st.pos) ∧
        (roundForced q search.pre s.pos d = true ∨ (s.moved d).pos = q.end_) := by
  simp only [offers, List.mem_append] at member
  rcases member with (first | second) | own
  · exact Or.inl first
  · exact Or.inr (Or.inl second)
  · refine Or.inr (Or.inr ?_)
    split at own
    next forced =>
      rcases List.mem_append.mp own with here | next
      · split at here
        · simp at here
        · exact Or.inl (List.mem_singleton.mp here)
      · exact Or.inr ⟨List.mem_singleton.mp next, Or.inl forced⟩
    next =>
      split at own
      next atEnd => exact Or.inr ⟨List.mem_singleton.mp own, Or.inr atEnd⟩
      next => simp at own

/-- The links the second `step` of a diagonal round offers, all told. -/
theorem mem_vertical_offers {r1 : Bool}
    (member : entry ∈ offers q ⟨search, .vertical st d s r1 dirs⟩) :
    entry ∈ lineOffers q search.pre s.pos ⟨0, d.y⟩ ∨ entry = (s.pos, st.pos) ∨
      entry = ((s.moved d).pos, st.pos) ∧ ¬ q.grid.obstacle (s.moved d).pos := by
  simp only [offers, List.mem_append] at member
  rcases member with line | own
  · exact Or.inl line
  · refine Or.inr ?_
    split at own
    · rcases List.mem_cons.mp own with here | beyond
      · exact Or.inl here
      · split at beyond
        next => simp at beyond
        next free => exact Or.inr ⟨List.mem_singleton.mp beyond, free⟩
    · simp at own

end Offers

/-- All pairs of 16-bit coordinates. -/
def positions : Finset Pos :=
  rectangle ⟨-32768, -32768⟩ 65536 65536

theorem mem_positions {p : Pos} (xRange : -32768 ≤ p.x ∧ p.x < 32768)
    (yRange : -32768 ≤ p.y ∧ p.y < 32768) : p ∈ positions := by
  apply mem_rectangle <;> simp only <;> omega

theorem Grid.Free.mem_positions {g : Grid} {p : Pos} (free : g.Free p) :
    p ∈ positions := by
  have range := inMapRange_of_inarea free.inarea
  simp only [InMapRange] at range
  apply Jps.mem_positions <;> omega

theorem moved_mem_positions (s : State) (d : Pos) : (s.moved d).pos ∈ positions :=
  mem_positions (toInt16_range _) (toInt16_range _)

/-- The open states and the positions that may still be opened. -/
def credit (search : Search) : Nat :=
  unlinkedCount positions search.pre + search.openlist.length

/-- `after` arises from `search` by offering links, some of them together with
a new open state. -/
structure Offered (search : Search) (entries : List (Pos × Pos))
    (after : Search) : Prop where
  pre : after.pre = entries.foldl insertLink search.pre
  opened : ∀ st ∈ after.openlist, st ∈ search.openlist ∨
    (IsStep ⟨st.dx, st.dy⟩ ∧ (after.pre st.pos).isSome)
  credit : credit after ≤ credit search

namespace Offered

variable {search middle after : Search} {entries more : List (Pos × Pos)}

theorem links_extend (offered : Offered search entries after) :
    Extends after.pre search.pre := by
  rw [offered.pre]
  exact foldl_insertLink_extends entries search.pre

theorem refl (search : Search) : Offered search [] search :=
  ⟨rfl, fun _ member => Or.inl member, le_rfl⟩

theorem trans (first : Offered search entries middle)
    (second : Offered middle more after) :
    Offered search (entries ++ more) after := by
  refine ⟨?_, ?_, second.credit.trans first.credit⟩
  · rw [List.foldl_append, ← first.pre]
    exact second.pre
  · intro st member
    rcases second.opened st member with old | new
    · refine (first.opened st old).imp_right ?_
      rintro ⟨turned, linked⟩
      obtain ⟨before, recorded⟩ := Option.isSome_iff_exists.mp linked
      exact ⟨turned, by simp [second.links_extend st.pos before recorded]⟩
    · exact Or.inr new

end Offered

section Specifications

variable (q : Query) {search : Search} {d before : Pos}

theorem offered_setpre (search : Search) (p before : Pos) :
    Offered search [(p, before)] (setpre search p before) := by
  refine ⟨rfl, fun st member => Or.inl member, ?_⟩
  have fewer := unlinkedCount_mono positions
    (insertLink_extends search.pre (p, before))
  simpa [credit, setpre] using fewer

theorem addjp_returns (search : Search) (s : State) (before : Pos) :
    (addjp q search s before).2 = (search.pre s.pos).isNone := by
  cases linked : search.pre s.pos <;> simp [addjp, linked]

theorem offered_addjp (s : State) (inside : s.pos ∈ positions)
    (turned : IsStep ⟨s.dx, s.dy⟩) :
    Offered search [(s.pos, before)] (addjp q search s before).1 := by
  cases linked : search.pre s.pos with
  | some old =>
      have same : (addjp q search s before).1 = search := by simp [addjp, linked]
      rw [same]
      refine ⟨?_, fun st member => Or.inl member, le_rfl⟩
      rw [List.foldl_cons, List.foldl_nil, insertLink_of_some linked]
  | none =>
      have fewer : unlinkedCount positions (insertLink search.pre (s.pos, before)) <
          unlinkedCount positions search.pre :=
        unlinkedCount_insertLink_lt inside linked
      refine ⟨by simp [addjp, linked], ?_, ?_⟩
      · intro st member
        simp only [addjp, linked, Option.isSome_none, Bool.false_eq_true, if_false,
          mem_insertAfter] at member ⊢
        rcases member with rfl | old
        · exact Or.inr ⟨turned, insertLink_isSome search.pre (s.pos, before)⟩
        · exact Or.inl old
      · simp only [credit, addjp, linked, Option.isSome_none, Bool.false_eq_true,
          if_false, length_insertAfter]
        omega

/-- `addfn` offers the forced neighbours; its flag is that of the last one. -/
theorem addfn_spec (straight : IsStraight d) (search : Search) (s : State) :
    Offered search (forcedOffers q.grid s.pos d) (addfn q search s d).1 ∧
      (addfn q search s d).2 = lastNew q.grid search.pre s.pos d := by
  have short := fneig_length q.grid s.pos d
  have offersOne : ∀ (search : Search), ∀ neighbour ∈ q.grid.fneig s.pos d,
      Offered search [(neighbour.1, s.pos)]
        (addjp q search ⟨neighbour.1.x, neighbour.1.y, toInt32 (s.cost + HWEI), 0,
          neighbour.2.x, neighbour.2.y⟩ s.pos).1 := by
    intro search neighbour member
    have inside : neighbour.1 ∈ positions := (fneig_free member).mem_positions
    exact offered_addjp q ⟨neighbour.1.x, neighbour.1.y, toInt32 (s.cost + HWEI), 0,
      neighbour.2.x, neighbour.2.y⟩ inside (fneig_step straight member)
  match forced : q.grid.fneig s.pos d, short with
  | [], _ =>
      simp only [addfn, forcedOffers, lastNew, forced]
      exact ⟨Offered.refl search, rfl⟩
  | [only], _ =>
      rw [forced] at offersOne
      simp only [addfn, forcedOffers, lastNew, forced]
      exact ⟨offersOne search only (List.mem_singleton_self only), addjp_returns q _ _ _⟩
  | [first, last], _ =>
      have different := fneig_ne straight forced
      rw [forced] at offersOne
      have offeredFirst := offersOne search first (by simp)
      simp only [addfn, forcedOffers, lastNew, forced]
      refine ⟨offeredFirst.trans (offersOne _ last (by simp)), ?_⟩
      simp only [List.foldl_cons, List.foldl_nil, addjp_returns]
      rw [offeredFirst.pre]
      simp only [List.foldl_cons, List.foldl_nil, List.getLast?_cons_cons,
        List.getLast?_singleton]
      rw [Bool.eq_iff_iff, Option.isNone_iff_eq_none, Option.isNone_iff_eq_none]
      rw [insertLink_eq_none]
      exact and_iff_left fun same => different same.symm

/-- A straight `step` records its offers and returns as stated. -/
theorem stepStraight_spec (endFree : q.grid.Free q.end_) (straight : IsStraight d)
    (search : Search) (st : State) :
    Offered search (lineOffers q search.pre st.pos d) (stepStraight q search st d).1 ∧
      (stepStraight q search st d).2 = lineReturns q search.pre st.pos d := by
  let s : State := { st with dx := d.x, dy := d.y }
  let len := getcache q.cache st.pos d
  let ns := (s.moved ⟨d.x * len, d.y * len⟩).paid (LWEI * len)
  have atEnd : ns.pos = jumpEnd q st.pos d := rfl
  by_cases blocked : q.grid.obstacle st.pos = true
  · have stays : stepStraight q search st d = (search, false) := by
      have sBlocked : q.grid.obstacle s.pos = true := blocked
      simp only [stepStraight, s, sBlocked, if_true]
    simp only [stays, lineOffers, lineReturns, jumps, blocked]
    exact ⟨Offered.refl search, rfl⟩
  have sFree : ¬ q.grid.obstacle s.pos = true := blocked
  by_cases short : len ≤ 0
  · have stays : stepStraight q search st d = (search, false) := by
      have sShort : getcache q.cache s.pos d ≤ 0 := short
      simp only [stepStraight]
      rw [if_neg sFree, if_pos sShort]
    have notJumps : jumps q st.pos d = false := by
      simp only [jumps, Bool.and_eq_false_imp, decide_eq_false_iff_not]
      intro _
      omega
    simp only [stays, lineOffers, lineReturns, notJumps]
    exact ⟨Offered.refl search, rfl⟩
  have sLong : ¬ getcache q.cache s.pos d ≤ 0 := short
  have jumping : jumps q st.pos d = true := by
    simp only [jumps, Bool.and_eq_true, Bool.not_eq_true', decide_eq_true_eq]
    exact ⟨by simpa using blocked, by omega⟩
  by_cases ended : checkend q st.pos (jumpEnd q st.pos d) = true
  · have stepped : stepStraight q search st d =
        ((addjp q search ⟨q.end_.x, q.end_.y, 0, 0, 0, 0⟩ st.pos).1, true) := by
      have sEnded : checkend q s.pos ns.pos = true := ended
      unfold stepStraight
      exact (if_neg sFree).trans ((if_neg sLong).trans (if_pos sEnded))
    simp only [stepped, lineOffers, lineReturns, jumping, ended]
    have notTurned : IsStep ⟨0, 0⟩ := by decide
    have inside : q.end_ ∈ positions := endFree.mem_positions
    exact ⟨offered_addjp q ⟨q.end_.x, q.end_.y, 0, 0, 0, 0⟩ inside notTurned, rfl⟩
  have sOn : ¬ checkend q s.pos ns.pos = true := ended
  obtain ⟨offeredForced, flag⟩ := addfn_spec q straight search ns
  rw [atEnd] at offeredForced flag
  by_cases new : lastNew q.grid search.pre (jumpEnd q st.pos d) d = true
  · have stepped : stepStraight q search st d =
        ((addjp q (addfn q search ns d).1 ns st.pos).1, true) := by
      unfold stepStraight
      exact (if_neg sFree).trans
        ((if_neg sLong).trans ((if_neg sOn).trans (if_pos (flag.trans new))))
    have turned : IsStep ⟨ns.dx, ns.dy⟩ := straight.isStep
    have offeredEnd : Offered (addfn q search ns d).1 [(ns.pos, st.pos)]
        (addjp q (addfn q search ns d).1 ns st.pos).1 :=
      offered_addjp q ns (moved_mem_positions s _) turned
    simp only [stepped, lineOffers, lineReturns, jumping, ended, new]
    exact ⟨offeredForced.trans offeredEnd, rfl⟩
  · have stepped : stepStraight q search st d = ((addfn q search ns d).1, false) := by
      have notNew : ¬ (addfn q search ns d).2 = true := by rwa [flag]
      unfold stepStraight
      exact (if_neg sFree).trans
        ((if_neg sLong).trans ((if_neg sOn).trans (if_neg notNew)))
    simp only [stepped, lineOffers, lineReturns, jumping, ended, new]
    refine ⟨by simpa using offeredForced, ?_⟩
    simp

end Specifications

/-- `p` is the start or has a predecessor. -/
def Known (q : Query) (links : Pos → Option Pos) (p : Pos) : Prop :=
  p = q.start_ ∨ (links p).isSome

theorem Known.mono {q : Query} {links later : Pos → Option Pos} {p : Pos}
    (known : Known q links p) (grows : Extends later links) : Known q later p := by
  refine known.imp_right fun linked => ?_
  obtain ⟨before, recorded⟩ := Option.isSome_iff_exists.mp linked
  simp [grows p before recorded]

/-- `s` walks in the diagonal direction `d`. -/
structure Walks (d : Pos) (s : State) : Prop where
  direction : IsDirection d
  sideways : d.x ≠ 0
  upright : d.y ≠ 0
  faces : (⟨s.dx, s.dy⟩ : Pos) = d

/-- The popped state a phase is busy with. -/
def Phase.origin : Phase → Option State
  | .pop => none
  | .directions st _ | .diagonal st _ _ _ | .horizontal st _ _ _
  | .vertical st _ _ _ _ => some st

/-- All directions a phase deals with are directions. -/
def Phase.Turns : Phase → Prop
  | .pop => True
  | .directions _ dirs => ∀ d ∈ dirs, IsDirection d
  | .diagonal _ d s dirs | .horizontal _ d s dirs | .vertical _ d s _ dirs =>
      Walks d s ∧ ∀ d ∈ dirs, IsDirection d

/-- The open states and the popped one are known. -/
structure Sound (q : Query) (config : Config) : Prop where
  opened : ∀ st ∈ config.search.openlist,
    IsStep ⟨st.dx, st.dy⟩ ∧ Known q config.search.pre st.pos
  origin : ∀ st, config.phase.origin = some st → Known q config.search.pre st.pos
  turns : config.phase.Turns

/-- The phase after a small step that does not pop. -/
def Follows (q : Query) (config after : Config) : Prop :=
  let links := config.search.pre
  match config.phase with
  | .pop => False
  | .directions _ [] => after.phase = .pop
  | .directions st (d :: dirs) =>
      if d.x = 0 ∨ d.y = 0 then after.phase = .directions st dirs
      else after.phase = .diagonal st d { st with dx := d.x, dy := d.y } dirs
  | .diagonal st d s dirs =>
      let next := (s.moved d).paid HWEI
      after.phase = .directions st dirs ∨
        (after.phase = .horizontal st d next dirs ∧
          roundForced q links s.pos d = false ∧ next.pos ≠ q.end_ ∧
          q.grid.Free next.pos ∧ after.search.pre next.pos = none)
  | .horizontal st d s dirs =>
      after.phase = .vertical st d s (lineReturns q links s.pos ⟨d.x, 0⟩) dirs
  | .vertical st d s r1 dirs =>
      let returned := r1 || lineReturns q links s.pos ⟨0, d.y⟩
      (returned = true ∧ after.phase = .directions st dirs) ∨
        (returned = false ∧ after.phase = .diagonal st d s dirs)

/-- What popping does: leave with nothing or with the predecessors, skip a
closed state, or turn to the directions of an open one. -/
theorem tick_pop (q : Query) (search : Search) :
    (search.openlist = [] ∧ tick q ⟨search, .pop⟩ = .inr none) ∨
    ∃ st openlist, search.openlist = st :: openlist ∧
      ((st.pos ∈ search.closelist ∧
          tick q ⟨search, .pop⟩ = .inl ⟨{ search with openlist }, .pop⟩) ∨
        (st.pos = q.end_ ∧ tick q ⟨search, .pop⟩ = .inr (some search.pre)) ∨
        (st.pos ≠ q.end_ ∧ tick q ⟨search, .pop⟩ =
          .inl ⟨{ search with openlist, closelist := st.pos :: search.closelist },
            .directions st (dirs st)⟩)) := by
  cases opened : search.openlist with
  | nil => exact Or.inl ⟨rfl, by simp [tick, opened]⟩
  | cons st openlist =>
      refine Or.inr ⟨st, openlist, rfl, ?_⟩
      by_cases closed : st.pos ∈ search.closelist
      · exact Or.inl ⟨closed, by simp [tick, opened, closed]⟩
      by_cases atEnd : st.pos = q.end_
      · refine Or.inr (Or.inl ⟨atEnd, ?_⟩)
        rw [atEnd] at closed
        simp [tick, opened, atEnd, closed]
      · refine Or.inr (Or.inr ⟨atEnd, ?_⟩)
        have notEnd : ¬ q.end_ = st.pos := fun same => atEnd same.symm
        simp [tick, opened, closed, notEnd]

section Ticks

variable {q : Query} {search : Search} {st s : State} {d : Pos} {r1 : Bool}
  {dirs : List Pos}

/-- A small step of a phase ends in `after` and records the step's offers. -/
def Ticks (q : Query) (config after : Config) : Prop :=
  tick q config = .inl after ∧
    Offered config.search (offers q config) after.search ∧ Follows q config after

theorem ticks_directions (endFree : q.grid.Free q.end_) (direction : IsDirection d) :
    ∃ after, Ticks q ⟨search, .directions st (d :: dirs)⟩ after := by
  by_cases flat : d.x = 0 ∨ d.y = 0
  · refine ⟨⟨(stepStraight q search st d).1, .directions st dirs⟩, ?_, ?_, ?_⟩
    · simp only [tick, if_pos flat]
    · have spec := stepStraight_spec q endFree (direction.straight flat) search st
      simpa only [offers, if_pos flat] using spec.1
    · simp only [Follows, if_pos flat]
  · refine ⟨⟨search, .diagonal st d { st with dx := d.x, dy := d.y } dirs⟩, ?_, ?_, ?_⟩
    · simp only [tick, if_neg flat]
    · simpa only [offers, if_neg flat] using Offered.refl search
    · simp only [Follows, if_neg flat]

theorem ticks_horizontal (endFree : q.grid.Free q.end_) (walks : Walks d s) :
    ∃ after, Ticks q ⟨search, .horizontal st d s dirs⟩ after := by
  have spec := stepStraight_spec q endFree
    (walks.direction.horizontal walks.sideways) search s
  refine ⟨⟨(stepStraight q search s ⟨d.x, 0⟩).1,
    .vertical st d s (stepStraight q search s ⟨d.x, 0⟩).2 dirs⟩, rfl, spec.1, ?_⟩
  simp only [Follows, spec.2]

theorem ticks_vertical (endFree : q.grid.Free q.end_) (walks : Walks d s) :
    ∃ after, Ticks q ⟨search, .vertical st d s r1 dirs⟩ after := by
  obtain ⟨offeredLine, returned⟩ := stepStraight_spec q endFree
    (walks.direction.vertical walks.upright) search s
  by_cases found : (r1 || lineReturns q search.pre s.pos ⟨0, d.y⟩) = true
  · let linked := setpre (stepStraight q search s ⟨0, d.y⟩).1 s.pos st.pos
    have offeredHere := offeredLine.trans (offered_setpre
      (stepStraight q search s ⟨0, d.y⟩).1 s.pos st.pos)
    by_cases blocked : q.grid.obstacle (s.moved d).pos = true
    · refine ⟨⟨linked, .directions st dirs⟩, ?_, ?_, ?_⟩
      · simp only [tick, returned, found, blocked, if_true]
        rfl
      · simpa only [offers, found, blocked, if_true] using offeredHere
      · simp only [Follows, found, true_and, true_or]
    · have offeredBeyond : Offered linked [((s.moved d).pos, st.pos)]
          (addjp q linked ((s.moved d).paid HWEI) st.pos).1 :=
        offered_addjp q ((s.moved d).paid HWEI) (moved_mem_positions s d)
          (walks.faces ▸ walks.direction.isStep)
      refine ⟨⟨(addjp q linked ((s.moved d).paid HWEI) st.pos).1,
        .directions st dirs⟩, ?_, ?_, ?_⟩
      · simp only [tick, returned, found, if_true]
        exact if_neg blocked
      · have all := offeredHere.trans offeredBeyond
        simp only [offers, found, blocked, if_true]
        simpa using all
      · simp only [Follows, found, true_and, true_or]
  · have notFound : (r1 || lineReturns q search.pre s.pos ⟨0, d.y⟩) = false := by
      simpa using found
    refine ⟨⟨(stepStraight q search s ⟨0, d.y⟩).1, .diagonal st d s dirs⟩, ?_, ?_, ?_⟩
    · simp only [tick, returned, notFound]
      rfl
    · simpa [offers, notFound] using offeredLine
    · simp only [Follows, notFound, true_and, or_true]

theorem ticks_diagonal (walks : Walks d s) :
    ∃ after, Ticks q ⟨search, .diagonal st d s dirs⟩ after := by
  obtain ⟨offered1, flag1⟩ := addfn_spec q
    (walks.direction.horizontal walks.sideways) search s
  let added1 := (addfn q search s ⟨d.x, 0⟩).1
  obtain ⟨offered2, flag2⟩ := addfn_spec q
    (walks.direction.vertical walks.upright) added1 s
  let added2 := (addfn q added1 s ⟨0, d.y⟩).1
  let next := (s.moved d).paid HWEI
  have offeredForced := offered1.trans offered2
  have flags : ((addfn q search s ⟨d.x, 0⟩).2 || (addfn q added1 s ⟨0, d.y⟩).2) =
      roundForced q search.pre s.pos d := by
    rw [flag1, flag2, offered1.pre]
    rfl
  have offeredNext : ∀ before, Offered before [((s.moved d).pos, st.pos)]
      (addjp q before next st.pos).1 := fun before =>
    offered_addjp q next (moved_mem_positions s d)
      (walks.faces ▸ walks.direction.isStep)
  by_cases forced : roundForced q search.pre s.pos d = true
  · -- The walk found a forced neighbour and goes on one cell further.
    by_cases first : s.pos = st.pos
    · refine ⟨⟨(addjp q added2 next st.pos).1, .directions st dirs⟩, ?_, ?_, ?_⟩
      · simp only [tick, added1, flags, forced, if_true]
        rw [if_pos first]
      · simp only [offers, forced, if_true]
        rw [if_pos first]
        exact offeredForced.trans (offeredNext added2)
      · simp only [Follows, true_or]
    · refine ⟨⟨(addjp q (setpre added2 s.pos st.pos) next st.pos).1,
        .directions st dirs⟩, ?_, ?_, ?_⟩
      · simp only [tick, added1, flags, forced, if_true]
        rw [if_neg first]
      · have all := (offeredForced.trans (offered_setpre added2 s.pos st.pos)).trans
          (offeredNext (setpre added2 s.pos st.pos))
        simp only [offers, forced, first, if_true, if_false]
        simpa using all
      · simp only [Follows, true_or]
  · have notForced : roundForced q search.pre s.pos d = false := by simpa using forced
    by_cases atEnd : next.pos = q.end_
    · have atEnd' : (s.moved d).pos = q.end_ := atEnd
      refine ⟨⟨(addjp q added2 next st.pos).1, .directions st dirs⟩, ?_, ?_, ?_⟩
      · simp only [tick, added1, flags, notForced, Bool.false_eq_true, if_false]
        exact if_pos atEnd
      · simp only [offers, notForced, atEnd', Bool.false_eq_true, if_false, if_true]
        have all := offeredForced.trans (offeredNext added2)
        rwa [atEnd'] at all
      · simp only [Follows, true_or]
    have atEnd' : ¬ (s.moved d).pos = q.end_ := atEnd
    have offeredAll : Offered search (offers q ⟨search, .diagonal st d s dirs⟩) added2 := by
      simp only [offers, notForced, atEnd', Bool.false_eq_true, if_false, List.append_nil]
      exact offeredForced
    by_cases stops : q.grid.obstacle next.pos = true ∨ (added2.pre next.pos).isSome = true
    · refine ⟨⟨added2, .directions st dirs⟩, ?_, offeredAll, ?_⟩
      · simp only [tick, added1, flags, notForced, Bool.false_eq_true, if_false]
        rw [if_neg atEnd]
        rcases stops with blocked | linked
        · exact if_pos blocked
        · by_cases blocked : q.grid.obstacle next.pos = true
          · exact if_pos blocked
          · exact (if_neg blocked).trans (if_pos linked)
      · simp only [Follows, true_or]
    · push Not at stops
      obtain ⟨notBlocked, notLinked⟩ := stops
      refine ⟨⟨added2, .horizontal st d next dirs⟩, ?_, offeredAll, ?_⟩
      · simp only [tick, added1, flags, notForced, Bool.false_eq_true, if_false]
        rw [if_neg atEnd]
        exact (if_neg notBlocked).trans (if_neg notLinked)
      · simp only [Follows]
        refine Or.inr ⟨rfl, notForced, atEnd, ?_, ?_⟩
        · simpa [Grid.Free] using notBlocked
        · simpa using notLinked

/-- Every phase but popping makes a small step that records its offers. -/
theorem ticks_of_turns {config : Config} (endFree : q.grid.Free q.end_)
    (turns : config.phase.Turns) (notPop : config.phase ≠ .pop) :
    ∃ after, Ticks q config after := by
  obtain ⟨search, phase⟩ := config
  cases phase with
  | pop => exact absurd rfl notPop
  | directions st dirs =>
      cases dirs with
      | nil => exact ⟨⟨search, .pop⟩, rfl, Offered.refl search, rfl⟩
      | cons d dirs => exact ticks_directions endFree (turns d List.mem_cons_self)
  | diagonal st d s dirs => exact ticks_diagonal turns.1
  | horizontal st d s dirs => exact ticks_horizontal endFree turns.1
  | vertical st d s r1 dirs => exact ticks_vertical endFree turns.1

end Ticks

section Soundness

variable {q : Query} {config after : Config}

theorem sound_initial (q : Query) : Sound q (initial q) := by
  refine ⟨?_, by simp [initial, Phase.origin], trivial⟩
  intro st member
  obtain rfl := List.mem_singleton.mp member
  have stays : IsStep ⟨0, 0⟩ := by decide
  exact ⟨stays, Or.inl rfl⟩

/-- The phase after a step is busy with the same state, in directions that were
planned already. -/
theorem Follows.keeps (follows : Follows q config after) (turns : config.phase.Turns) :
    after.phase.Turns ∧
      ∀ st, after.phase.origin = some st → config.phase.origin = some st := by
  obtain ⟨search, phase⟩ := config
  cases phase with
  | pop => exact follows.elim
  | directions st dirs =>
      cases dirs with
      | nil =>
          have popping : after.phase = .pop := follows
          simp [popping, Phase.Turns, Phase.origin]
      | cons d dirs =>
          have rest : ∀ d ∈ dirs, IsDirection d :=
            fun d member => turns d (List.mem_cons_of_mem _ member)
          simp only [Follows] at follows
          split at follows
          next => exact ⟨follows ▸ rest, fun st same => by rwa [follows] at same⟩
          next turned =>
            push Not at turned
            have walks : Walks d { st with dx := d.x, dy := d.y } :=
              ⟨turns d List.mem_cons_self, turned.1, turned.2, rfl⟩
            exact ⟨follows ▸ ⟨walks, rest⟩, fun st same => by rwa [follows] at same⟩
  | diagonal st d s dirs =>
      rcases follows with next | ⟨next, -⟩
      · exact ⟨next ▸ turns.2, fun st same => by rwa [next] at same⟩
      · have walks : Walks d ((s.moved d).paid HWEI) :=
          ⟨turns.1.direction, turns.1.sideways, turns.1.upright, turns.1.faces⟩
        exact ⟨next ▸ ⟨walks, turns.2⟩, fun st same => by rwa [next] at same⟩
  | horizontal st d s dirs =>
      have next : after.phase = _ := follows
      exact ⟨next ▸ turns, fun st same => by rwa [next] at same⟩
  | vertical st d s r1 dirs =>
      rcases follows with ⟨-, next⟩ | ⟨-, next⟩
      · exact ⟨next ▸ turns.2, fun st same => by rwa [next] at same⟩
      · exact ⟨next ▸ turns, fun st same => by rwa [next] at same⟩

theorem Sound.ticks (sound : Sound q config) (ticks : Ticks q config after) :
    Sound q after := by
  obtain ⟨-, offered, follows⟩ := ticks
  have grows := offered.links_extend
  obtain ⟨turns, origins⟩ := follows.keeps sound.turns
  refine ⟨?_, ?_, turns⟩
  · intro st member
    rcases offered.opened st member with old | ⟨turned, linked⟩
    · exact (sound.opened st old).imp_right fun known => known.mono grows
    · exact ⟨turned, Or.inr linked⟩
  · intro st isOrigin
    exact (sound.origin st (origins st isOrigin)).mono grows

theorem Sound.tick (endFree : q.grid.Free q.end_) (sound : Sound q config)
    (stepped : tick q config = .inl after) : Sound q after := by
  obtain ⟨search, phase⟩ := config
  by_cases popping : phase = .pop
  · subst phase
    rcases tick_pop q search with ⟨-, exits⟩ | ⟨st, openlist, opened,
      ⟨-, continues⟩ | ⟨-, exits⟩ | ⟨-, continues⟩⟩
    · simp [exits] at stepped
    · obtain rfl := Sum.inl.inj (continues.symm.trans stepped)
      refine ⟨fun st member => sound.opened st ?_, by simp [Phase.origin], trivial⟩
      exact opened ▸ List.mem_cons_of_mem _ member
    · simp [exits] at stepped
    · obtain rfl := Sum.inl.inj (continues.symm.trans stepped)
      have popped := sound.opened st (opened ▸ List.mem_cons_self)
      refine ⟨fun st member => sound.opened st ?_, ?_, ?_⟩
      · exact opened ▸ List.mem_cons_of_mem _ member
      · intro origin same
        obtain rfl := Option.some.inj same
        exact popped.2
      · exact fun d member => isDirection_of_mem_dirs popped.1 member
  · obtain ⟨next, ticks⟩ := ticks_of_turns endFree sound.turns popping
    obtain rfl := Sum.inl.inj (ticks.1.symm.trans stepped)
    exact sound.ticks ticks

theorem Reaches.sound (reaches : Reaches q config) : Sound q config := by
  obtain ⟨searches, reaches⟩ := reaches
  induction reaches with
  | refl => exact sound_initial q
  | tail _ stepped ih => exact ih.tick searches.endFree stepped

theorem Reaches.next (reaches : Reaches q config)
    (stepped : tick q config = .inl after) : Reaches q after :=
  ⟨reaches.1, reaches.2.tail stepped⟩

end Soundness

end Jps

end LuaServer
