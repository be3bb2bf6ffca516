import LuaServer.JpsSearchLinks

/-!
# The predecessor links lead back to the start

A step of the jump point search hangs the forced neighbours of a cell on that
cell before it links the cell itself, and links the cell only when the flag of
`addfn` says that something was added.  The flag is that of the last forced
neighbour, so a new first neighbour is forgotten when the last one is already
linked.  As long as no step loses the flag of a cell that has no predecessor,
every recorded predecessor leads back to the start.
-/

namespace LuaServer

namespace Jps

open GridCell MachineIntegers PredecessorLinks FueledLoops

section Conditions

variable (q : Query)

/-- A straight `step` from `p` hangs a forced neighbour on a cell that has no
predecessor, and does not link that cell because the flag is overwritten. -/
structure LineLosesFlag (links : Pos → Option Pos) (p d : Pos) : Prop where
  jumping : jumps q p d = true
  passing : checkend q p (jumpEnd q p d) = false
  overwritten : Overwrites q.grid links (jumpEnd q p d) d
  unlinked : links (jumpEnd q p d) = none
  notStart : jumpEnd q p d ≠ q.start_

/-- A diagonal round does the same at the cell `p` it has reached. -/
structure WalkLosesFlag (links : Pos → Option Pos) (pstart p d : Pos) : Prop where
  notForced : roundForced q links p d = false
  overwritten : Overwrites q.grid links p ⟨d.x, 0⟩ ∨
    Overwrites q.grid (linksBetween q links p d) p ⟨0, d.y⟩
  unlinked : links p = none
  moved : p ≠ pstart
  notStart : p ≠ q.start_

/-- The next small step loses the flag of a cell without predecessor. -/
def LosesFlag (config : Config) : Prop :=
  let links := config.search.pre
  match config.phase with
  | .pop => False
  | .directions _ [] => False
  | .directions st (d :: _) => (d.x = 0 ∨ d.y = 0) ∧ LineLosesFlag q links st.pos d
  | .diagonal st d s _ => WalkLosesFlag q links st.pos s.pos d
  | .horizontal _ d s _ => LineLosesFlag q links s.pos ⟨d.x, 0⟩
  | .vertical _ d s _ _ => LineLosesFlag q links s.pos ⟨0, d.y⟩

end Conditions

section Lines

variable {q : Query} {links : Pos → Option Pos} {roots : Pos → Prop} {p d : Pos}

/-- A forced neighbour is another cell, also across the row or column of a
line. -/
theorem fneig_beside {g : Grid} (straight : IsStraight d) {neighbour : Pos × Pos}
    (member : neighbour ∈ g.fneig p d) :
    (d.x = 0 → neighbour.1.x % 65536 ≠ p.x % 65536) ∧
      (d.y = 0 → neighbour.1.y % 65536 ≠ p.y % 65536) := by
  have plusX := toInt16_emod (p.x + d.y)
  have minusX := toInt16_emod (p.x + -d.y)
  have plusY := toInt16_emod (p.y + d.x)
  have minusY := toInt16_emod (p.y + -d.x)
  simp only [Grid.fneig, List.mem_append] at member
  rcases member with first | last
  · split at first
    · obtain rfl := List.mem_singleton.mp first
      simp only [shift, toInt16_emod]
      rcases straight with rfl | rfl | rfl | rfl <;>
        simp only at plusX minusX plusY minusY ⊢ <;> constructor <;> omega
    · simp at first
  · split at last
    · obtain rfl := List.mem_singleton.mp last
      simp only [shift, toInt16_emod]
      rcases straight with rfl | rfl | rfl | rfl <;>
        simp only at plusX minusX plusY minusY ⊢ <;> constructor <;> omega
    · simp at last

theorem fneig_ne_self {g : Grid} (straight : IsStraight d) {neighbour : Pos × Pos}
    (member : neighbour ∈ g.fneig p d) : neighbour.1 ≠ p := by
  intro same
  have beside := fneig_beside straight member
  rw [same] at beside
  rcases straight with rfl | rfl | rfl | rfl <;> simp at beside

theorem mem_forcedOffers {g : Grid} {entry : Pos × Pos}
    (member : entry ∈ forcedOffers g p d) :
    entry.2 = p ∧ ∃ neighbour ∈ g.fneig p d, neighbour.1 = entry.1 := by
  obtain ⟨neighbour, forced, rfl⟩ := List.mem_map.mp member
  exact ⟨rfl, neighbour, forced, rfl⟩

theorem forcedOffers_linked
    (notNew : lastNew q.grid links p d = false)
    (kept : ¬ Overwrites q.grid links p d) :
    ∀ entry ∈ forcedOffers q.grid p d, links entry.1 ≠ none := by
  intro entry member unlinked
  obtain ⟨-, neighbour, forced, same⟩ := mem_forcedOffers member
  rw [← same] at unlinked
  exact kept (overwrites_of_not_lastNew notNew forced unlinked)

/-- Entries whose predecessor is a new cell or leads to the roots may be added
when the cell gets a predecessor that leads to the roots. -/
theorem backed_of_hung {entries : List (Pos × Pos)} (backed : BackedBy links roots)
    (hung : ∀ entry ∈ entries, entry.2 = p ∨ RootedIn links roots entry.2)
    (anchored : RootedIn links roots p ∨
      (∃ before, (p, before) ∈ entries) ∧
        ∀ before, (p, before) ∈ entries → RootedIn links roots before) :
    BackedBy (entries.foldl insertLink links) roots := by
  let wider : Pos → Prop := fun root => roots root ∨ root = p
  have grows := foldl_insertLink_extends entries links
  have hungWider : ∀ entry ∈ entries, RootedIn links wider entry.2 := by
    intro entry member
    rcases hung entry member with same | ⟨root, isRoot, leads⟩
    · exact same ▸ rootedIn_of_root (Or.inr rfl)
    · exact ⟨root, Or.inl isRoot, leads⟩
  have backedWider : BackedBy (entries.foldl insertLink links) wider :=
    (backed.widen fun root isRoot => Or.inl isRoot).foldl_insertLink hungWider
  apply backedWider.replace
  rintro root (isRoot | rfl)
  · exact rootedIn_of_root isRoot
  · rcases anchored with rooted | ⟨⟨before, member⟩, leads⟩
    · exact rooted.mono grows
    · have linked : entries.foldl insertLink links root ≠ none := by
        rw [ne_eq, foldl_insertLink_eq_none, not_and]
        rintro - fresh
        exact fresh _ member rfl
      obtain ⟨after, recorded⟩ := Option.ne_none_iff_exists'.mp linked
      have rooted : RootedIn links roots after := by
        rcases foldl_insertLink_eq_some recorded with old | ⟨-, offered⟩
        · exact backed root after old
        · exact leads after offered
      obtain ⟨last, isRoot, toLast⟩ := rooted.mono grows
      exact ⟨last, isRoot, toLast.of_link recorded⟩

/-- A straight `step` that does not lose a flag keeps the links backed, if the
cell it starts from leads to the roots whenever something hangs on it. -/
theorem line_backed (straight : IsStraight d) (backed : BackedBy links roots)
    (startIn : roots q.start_)
    (hooks : lineReturns q links p d = true → RootedIn links roots p)
    (kept : ¬ LineLosesFlag q links p d) :
    BackedBy ((lineOffers q links p d).foldl insertLink links) roots := by
  by_cases jumping : jumps q p d = true
  swap
  · simpa [lineOffers, jumping] using backed
  by_cases ended : checkend q p (jumpEnd q p d) = true
  · have rooted := hooks (by simp [lineReturns, jumping, ended])
    simp only [lineOffers, jumping, ended, Bool.not_true, Bool.false_eq_true, if_false,
      if_true]
    apply backed.foldl_insertLink
    intro entry member
    obtain rfl := List.mem_singleton.mp member
    exact rooted
  by_cases new : lastNew q.grid links (jumpEnd q p d) d = true
  · have rooted := hooks (by simp [lineReturns, jumping, new])
    simp only [lineOffers, jumping, ended, new, Bool.not_true, Bool.false_eq_true,
      if_false, if_true]
    apply backed_of_hung (p := jumpEnd q p d) backed
    · intro entry member
      rcases List.mem_append.mp member with forced | own
      · exact Or.inl (mem_forcedOffers forced).1
      · obtain rfl := List.mem_singleton.mp own
        exact Or.inr rooted
    · refine Or.inr ⟨⟨p, by simp⟩, ?_⟩
      intro before member
      rcases List.mem_append.mp member with forced | own
      · obtain ⟨-, neighbour, isForced, same⟩ := mem_forcedOffers forced
        exact absurd same (fneig_ne_self straight isForced)
      · obtain rfl := (Prod.mk.inj (List.mem_singleton.mp own)).2
        exact rooted
  · have notNew : lastNew q.grid links (jumpEnd q p d) d = false := by simpa using new
    simp only [lineOffers, jumping, ended, new, Bool.not_true, Bool.false_eq_true,
      if_false, List.append_nil]
    by_cases known : Known q links (jumpEnd q p d)
    · have rooted : RootedIn links roots (jumpEnd q p d) := by
        rcases known with same | linked
        · exact same ▸ rootedIn_of_root startIn
        · obtain ⟨before, recorded⟩ := Option.isSome_iff_exists.mp linked
          exact backed.rootedIn recorded
      apply backed.foldl_insertLink
      intro entry member
      rw [(mem_forcedOffers member).1]
      exact rooted
    · have notOverwritten : ¬ Overwrites q.grid links (jumpEnd q p d) d := by
        intro overwritten
        simp only [Known, not_or, Option.not_isSome_iff_eq_none] at known
        exact kept ⟨jumping, by simpa using ended, overwritten, known.2, known.1⟩
      rwa [foldl_insertLink_of_linked (forcedOffers_linked notNew notOverwritten)]

/-- A jump leads over free cells to the cell the cache names. -/
theorem jump_spec (straight : IsStraight d) (jumping : jumps q p d = true) :
    q.grid.Free p ∧ ∃ len : Nat, 0 < len ∧ jumpEnd q p d = p.advance d len ∧
      ∀ i : Nat, 1 ≤ i → i ≤ len → q.grid.Free (p.advance d i) := by
  simp only [jumps, Bool.and_eq_true, Bool.not_eq_true', decide_eq_true_eq] at jumping
  obtain ⟨pFree, positive⟩ := jumping
  have free : q.grid.Free p := pFree
  have exactLength := q.cached.jumpLength free.inarea straight
  obtain ⟨len, lenEq⟩ : ∃ len : Nat, getcache q.cache p d = len :=
    ⟨(getcache q.cache p d).toNat, by omega⟩
  rw [lenEq] at positive exactLength
  have clear : ∀ i : Nat, 1 ≤ i → i ≤ len → q.grid.Free (p.advance d i) :=
    fun i iPos iLe => exactLength.clear i (by omega) (by omega)
  have range := inMapRange_of_inarea (clear len (by omega) le_rfl).inarea
  simp only [InMapRange, advance_x, advance_y] at range
  refine ⟨free, len, by omega, ?_, clear⟩
  simp only [jumpEnd, lenEq, advance]
  rw [toInt16_of_range (by omega) (by omega), toInt16_of_range (by omega) (by omega)]

theorem lineOffers_ne_self (straight : IsStraight d) (notEnd : p ≠ q.end_)
    {entry : Pos × Pos} (member : entry ∈ lineOffers q links p d) : entry.1 ≠ p := by
  intro same
  by_cases jumping : jumps q p d = true
  swap
  · simp [lineOffers, jumping] at member
  obtain ⟨-, len, positive, atEnd, -⟩ := jump_spec straight jumping
  by_cases ended : checkend q p (jumpEnd q p d) = true
  · simp only [lineOffers, jumping, ended, Bool.not_true, Bool.false_eq_true, if_false,
      if_true] at member
    obtain rfl := List.mem_singleton.mp member
    exact notEnd same.symm
  · simp only [lineOffers, jumping, ended, Bool.not_true, Bool.false_eq_true,
      if_false] at member
    rcases List.mem_append.mp member with forced | own
    · obtain ⟨-, neighbour, isForced, atKey⟩ := mem_forcedOffers forced
      have beside := fneig_beside straight isForced
      rw [atKey, same, atEnd] at beside
      rcases straight with rfl | rfl | rfl | rfl <;> simp at beside
    · split at own
      · obtain rfl := List.mem_singleton.mp own
        simp only [atEnd] at same
        have sameX := congrArg GridCell.x same
        have sameY := congrArg GridCell.y same
        simp only [advance_x, advance_y] at sameX sameY
        rcases straight with rfl | rfl | rfl | rfl <;> simp only at sameX sameY <;> omega
      · simp at own

end Lines

section Walks

variable {q : Query} {links : Pos → Option Pos} {pstart d : Pos}

theorem Known.rootedIn {p : Pos} (known : Known q links p)
    (backed : BackedBy links (· = q.start_)) : RootedIn links (· = q.start_) p := by
  rcases known with same | linked
  · exact rootedIn_of_root same
  · obtain ⟨before, recorded⟩ := Option.isSome_iff_exists.mp linked
    exact backed.rootedIn recorded

/-- A diagonal round that does not lose a flag keeps the links backed. -/
theorem diagonal_backed {search : Search} {st s : State} (dirs : List Pos)
    (walks : Walks d s) (backed : BackedBy search.pre (· = q.start_))
    (rooted : RootedIn search.pre (· = q.start_) st.pos)
    (kept : ¬ WalkLosesFlag q search.pre st.pos s.pos d) :
    BackedBy ((offers q ⟨search, .diagonal st d s dirs⟩).foldl insertLink search.pre)
      (· = q.start_) := by
  have horizontal := walks.direction.horizontal walks.sideways
  have vertical := walks.direction.vertical walks.upright
  have hung : ∀ entry ∈ offers q ⟨search, .diagonal st d s dirs⟩,
      entry.2 = s.pos ∨ RootedIn search.pre (· = q.start_) entry.2 := by
    intro entry member
    rcases mem_diagonal_offers member with first | second | rfl | ⟨rfl, -⟩
    · exact Or.inl (mem_forcedOffers first).1
    · exact Or.inl (mem_forcedOffers second).1
    · exact Or.inr rooted
    · exact Or.inr rooted
  by_cases here : s.pos = st.pos ∨ Known q search.pre s.pos
  · have anchored : RootedIn search.pre (· = q.start_) s.pos := by
      rcases here with same | knownHere
      · exact same ▸ rooted
      · exact knownHere.rootedIn backed
    exact backed_of_hung backed hung (Or.inl anchored)
  push Not at here
  obtain ⟨moved, unknown⟩ := here
  simp only [Known, not_or, Option.not_isSome_iff_eq_none] at unknown
  by_cases forced : roundForced q search.pre s.pos d = true
  · refine backed_of_hung backed hung (Or.inr ⟨⟨st.pos, ?_⟩, ?_⟩)
    · simp [offers, forced, moved]
    · intro before member
      have atStart : before = st.pos ∨
          (s.pos, before) ∈ forcedOffers q.grid s.pos ⟨d.x, 0⟩ ∨
            (s.pos, before) ∈ forcedOffers q.grid s.pos ⟨0, d.y⟩ := by
        rcases mem_diagonal_offers member with first | second | own | ⟨own, -⟩
        · exact Or.inr (Or.inl first)
        · exact Or.inr (Or.inr second)
        · exact Or.inl (congrArg Prod.snd own)
        · exact Or.inl (congrArg Prod.snd own)
      rcases atStart with same | first | second
      · exact same ▸ rooted
      · obtain ⟨-, neighbour, isForced, same⟩ := mem_forcedOffers first
        exact absurd same (fneig_ne_self horizontal isForced)
      · obtain ⟨-, neighbour, isForced, same⟩ := mem_forcedOffers second
        exact absurd same (fneig_ne_self vertical isForced)
  · -- Neither flag is set, so nothing new hangs on the cell.
    have notForced : roundForced q search.pre s.pos d = false := by simpa using forced
    have kept1 : ¬ Overwrites q.grid search.pre s.pos ⟨d.x, 0⟩ := fun overwritten =>
      kept ⟨notForced, Or.inl overwritten, unknown.2, moved, unknown.1⟩
    have kept2 : ¬ Overwrites q.grid (linksBetween q search.pre s.pos d) s.pos ⟨0, d.y⟩ :=
      fun overwritten => kept ⟨notForced, Or.inr overwritten, unknown.2, moved, unknown.1⟩
    obtain ⟨notNew1, notNew2⟩ := Bool.or_eq_false_iff.mp notForced
    have linked1 := forcedOffers_linked notNew1 kept1
    have between : linksBetween q search.pre s.pos d = search.pre :=
      foldl_insertLink_of_linked linked1
    rw [between] at kept2 notNew2
    have linked2 := forcedOffers_linked notNew2 kept2
    have same : (forcedOffers q.grid s.pos ⟨d.x, 0⟩ ++
        forcedOffers q.grid s.pos ⟨0, d.y⟩).foldl insertLink search.pre = search.pre := by
      apply foldl_insertLink_of_linked
      intro entry member
      exact (List.mem_append.mp member).elim (linked1 entry) (linked2 entry)
    simp only [offers, notForced, Bool.false_eq_true, if_false]
    rw [List.foldl_append, same]
    apply backed.foldl_insertLink
    intro entry member
    split at member
    · obtain rfl := List.mem_singleton.mp member
      exact rooted
    · simp at member

/-- The second `step` of a diagonal round keeps the links backed by the start
and the cell of the round, and links that cell when something hangs on it. -/
theorem vertical_backed {search : Search} {st s : State} {r1 : Bool} (dirs : List Pos)
    (walks : Walks d s)
    (backed : BackedBy search.pre fun p => p = q.start_ ∨ (r1 = true ∧ p = s.pos))
    (rooted : RootedIn search.pre (· = q.start_) st.pos)
    (unlinked : search.pre s.pos = none) (notEnd : s.pos ≠ q.end_)
    (kept : ¬ LineLosesFlag q search.pre s.pos ⟨0, d.y⟩) :
    BackedBy ((offers q ⟨search, .vertical st d s r1 dirs⟩).foldl insertLink search.pre)
      (· = q.start_) := by
  have vertical := walks.direction.vertical walks.upright
  by_cases found : (r1 || lineReturns q search.pre s.pos ⟨0, d.y⟩) = true
  swap
  · have notFound : (r1 || lineReturns q search.pre s.pos ⟨0, d.y⟩) = false := by
      simpa using found
    obtain ⟨notFirst, notSecond⟩ := Bool.or_eq_false_iff.mp notFound
    simp only [offers, notFound, Bool.false_eq_true, if_false, List.append_nil]
    have backedStart : BackedBy search.pre (· = q.start_) :=
      backed.widen fun p isRoot => isRoot.resolve_right fun first => by
        simp [notFirst] at first
    exact line_backed vertical backedStart rfl (by simp [notSecond]) kept
  -- The line hangs its offers on the cell, which is linked afterwards.
  let wider : Pos → Prop := fun p => p = q.start_ ∨ p = s.pos
  have backedLine : BackedBy
      ((lineOffers q search.pre s.pos ⟨0, d.y⟩).foldl insertLink search.pre) wider :=
    line_backed vertical (backed.widen fun p isRoot => isRoot.imp_right And.right)
      (Or.inl rfl) (fun _ => rootedIn_of_root (Or.inr rfl)) kept
  have grows := foldl_insertLink_extends (lineOffers q search.pre s.pos ⟨0, d.y⟩) search.pre
  have stays : (lineOffers q search.pre s.pos ⟨0, d.y⟩).foldl insertLink search.pre s.pos =
      none :=
    foldl_insertLink_eq_none.mpr
      ⟨unlinked, fun entry member same =>
        lineOffers_ne_self vertical notEnd member same.symm⟩
  simp only [offers, found, if_true]
  rw [List.foldl_append, List.foldl_cons]
  set lined := (lineOffers q search.pre s.pos ⟨0, d.y⟩).foldl insertLink search.pre
  have linkedHere : insertLink lined (s.pos, st.pos) s.pos = some st.pos := by
    rw [insertLink_of_none stays]
    simp
  have rootedStart : RootedIn (insertLink lined (s.pos, st.pos)) (· = q.start_) st.pos :=
    (rooted.mono grows).mono (insertLink_extends lined _)
  have backedHere : BackedBy (insertLink lined (s.pos, st.pos)) (· = q.start_) := by
    have widened : BackedBy (insertLink lined (s.pos, st.pos)) wider := by
      have rootedWider : ∀ entry ∈ [(s.pos, st.pos)], RootedIn lined wider entry.2 := by
        intro entry member
        obtain rfl := List.mem_singleton.mp member
        obtain ⟨root, isRoot, leads⟩ := rooted.mono grows
        exact ⟨root, Or.inl isRoot, leads⟩
      exact backedLine.foldl_insertLink rootedWider
    apply widened.replace
    rintro root (same | rfl)
    · exact rootedIn_of_root same
    · obtain ⟨root, isRoot, leads⟩ := rootedStart
      exact ⟨root, isRoot, leads.of_link linkedHere⟩
  apply backedHere.foldl_insertLink
  intro entry member
  split at member
  · simp at member
  · obtain rfl := List.mem_singleton.mp member
    exact rootedStart

end Walks

section Runs

variable {q : Query} {config after : Config}

/-- Where recorded predecessors may lead back to: the start, and between the
two calls of a diagonal round also its cell, if something hangs on it. -/
def Phase.Roots (q : Query) : Phase → Pos → Prop
  | .vertical _ _ s r1 _ => fun p => p = q.start_ ∨ (r1 = true ∧ p = s.pos)
  | _ => (· = q.start_)

/-- A cell a diagonal round has moved to is not the end and has no
predecessor. -/
def Phase.Fresh (q : Query) (links : Pos → Option Pos) : Phase → Prop
  | .horizontal _ _ s _ | .vertical _ _ s _ _ => s.pos ≠ q.end_ ∧ links s.pos = none
  | _ => True

/-- All links and the popped state lead back to the roots of the phase. -/
structure Rooting (q : Query) (config : Config) : Prop where
  backed : BackedBy config.search.pre (config.phase.Roots q)
  origin : ∀ st, config.phase.origin = some st →
    RootedIn config.search.pre (· = q.start_) st.pos
  fresh : config.phase.Fresh q config.search.pre

theorem rooting_initial (q : Query) : Rooting q (initial q) := by
  refine ⟨?_, by simp [initial, Phase.origin], trivial⟩
  intro vertex before recorded
  simp [initial] at recorded

/-- A small step that loses no flag keeps the links rooted. -/
theorem Rooting.ticks (rooting : Rooting q config) (turns : config.phase.Turns)
    (ticks : Ticks q config after) (kept : ¬ LosesFlag q config) : Rooting q after := by
  obtain ⟨-, offered, follows⟩ := ticks
  have grows := offered.links_extend
  have origins := (follows.keeps turns).2
  have origin : ∀ st, after.phase.origin = some st →
      RootedIn after.search.pre (· = q.start_) st.pos :=
    fun st isOrigin => (rooting.origin st (origins st isOrigin)).mono grows
  have recorded := offered.pre
  obtain ⟨search, phase⟩ := config
  cases phase with
  | pop => exact follows.elim
  | directions st dirs =>
      have backed : BackedBy search.pre (· = q.start_) := rooting.backed
      have rooted := rooting.origin st rfl
      cases dirs with
      | nil =>
          have next : after.phase = .pop := follows
          have same : after.search.pre = search.pre := recorded
          exact ⟨by rw [next, same]; exact backed, origin, by simp [next, Phase.Fresh]⟩
      | cons d dirs =>
          simp only [Follows] at follows
          simp only [offers] at recorded
          split at follows
          next flat =>
            have straight := (turns d List.mem_cons_self).straight flat
            have keptLine : ¬ LineLosesFlag q search.pre st.pos d :=
              fun loses => kept ⟨flat, loses⟩
            rw [if_pos flat] at recorded
            have backedAfter := line_backed straight backed rfl (fun _ => rooted) keptLine
            rw [← recorded] at backedAfter
            exact ⟨by rwa [follows], origin, by simp [follows, Phase.Fresh]⟩
          next turned =>
            rw [if_neg turned] at recorded
            have same : after.search.pre = search.pre := recorded
            exact ⟨by rw [follows, same]; exact backed, origin,
              by simp [follows, Phase.Fresh]⟩
  | diagonal st d s dirs =>
      have backedAfter := diagonal_backed dirs turns.1 rooting.backed
        (rooting.origin st rfl) kept
      rw [← recorded] at backedAfter
      rcases follows with next | ⟨next, -, notEnd, -, unlinked⟩
      · exact ⟨by rwa [next], origin, by simp [next, Phase.Fresh]⟩
      · exact ⟨by rwa [next], origin, by rw [next]; exact ⟨notEnd, unlinked⟩⟩
  | horizontal st d s dirs =>
      obtain ⟨notEnd, unlinked⟩ := rooting.fresh
      have horizontal := turns.1.direction.horizontal turns.1.sideways
      have next : after.phase = .vertical st d s
        (lineReturns q search.pre s.pos ⟨d.x, 0⟩) dirs := follows
      have backedAfter : BackedBy after.search.pre fun p => p = q.start_ ∨
          (lineReturns q search.pre s.pos ⟨d.x, 0⟩ = true ∧ p = s.pos) := by
        rw [recorded]
        exact line_backed horizontal (rooting.backed.widen fun p => Or.inl) (Or.inl rfl)
          (fun returned => rootedIn_of_root (Or.inr ⟨returned, rfl⟩)) kept
      have stays : after.search.pre s.pos = none := by
        rw [recorded]
        exact foldl_insertLink_eq_none.mpr ⟨unlinked, fun entry member same =>
          lineOffers_ne_self horizontal notEnd member same.symm⟩
      exact ⟨by rwa [next], origin, by rw [next]; exact ⟨notEnd, stays⟩⟩
  | vertical st d s r1 dirs =>
      obtain ⟨notEnd, unlinked⟩ := rooting.fresh
      have backedAfter := vertical_backed dirs turns.1 rooting.backed
        (rooting.origin st rfl) unlinked notEnd kept
      rw [← recorded] at backedAfter
      rcases follows with ⟨-, next⟩ | ⟨-, next⟩ <;>
        exact ⟨by rwa [next], origin, by simp [next, Phase.Fresh]⟩

theorem Rooting.tick (endFree : q.grid.Free q.end_) (sound : Sound q config)
    (rooting : Rooting q config) (stepped : tick q config = .inl after)
    (kept : ¬ LosesFlag q config) : Rooting q after := by
  by_cases popping : config.phase = .pop
  · obtain ⟨search, phase⟩ := config
    simp only at popping
    subst phase
    have backed : BackedBy search.pre (· = q.start_) := rooting.backed
    rcases tick_pop q search with ⟨-, exits⟩ | ⟨st, openlist, opened,
      ⟨-, continues⟩ | ⟨-, exits⟩ | ⟨-, continues⟩⟩
    · simp [exits] at stepped
    · obtain rfl := Sum.inl.inj (continues.symm.trans stepped)
      exact ⟨backed, by simp [Phase.origin], trivial⟩
    · simp [exits] at stepped
    · obtain rfl := Sum.inl.inj (continues.symm.trans stepped)
      refine ⟨backed, ?_, trivial⟩
      intro origin same
      obtain rfl := Option.some.inj same
      exact (sound.opened st (opened ▸ List.mem_cons_self)).2.rootedIn backed
  · obtain ⟨next, ticks⟩ := ticks_of_turns endFree sound.turns popping
    obtain rfl := Sum.inl.inj (ticks.1.symm.trans stepped)
    exact rooting.ticks sound.turns ticks kept

theorem Reaches.rooting (kept : ∀ config, Reaches q config → ¬ LosesFlag q config)
    (reaches : Reaches q config) : Rooting q config := by
  obtain ⟨searches, run⟩ := reaches
  induction run with
  | refl => exact rooting_initial q
  | tail run stepped ih =>
      have before : Reaches q _ := ⟨searches, run⟩
      exact ih.tick searches.endFree before.sound stepped (kept _ before)

end Runs

end Jps

end LuaServer
