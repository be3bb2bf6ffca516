import LuaServer.AstarSearch

/-!
# Correctness of the A* search

Whatever the heuristic returns and in whatever order states are popped, the
search keeps one invariant: discovered positions are linked back to the start
by steps between free positions, every discovered position is open or closed,
and all free neighbours of a closed position are discovered.  Hence the search
ends, finds a path exactly when there is one, and the waypoints it returns lie
on clear lines.
-/

namespace LuaServer

namespace Astar

open GridCell MachineIntegers PredecessorLinks OrderedMultisets FueledLoops
  Relation

/-- One of the eight moves between unblocked positions of the map. -/
def Move (w : World) (p q : Pos) : Prop :=
  w.Free p ∧ w.Free q ∧
    ∃ direction : Pos, direction.IsStep ∧ direction ≠ ⟨0, 0⟩ ∧
      q = p.advance direction 1

def Reachable (w : World) (s e : Pos) : Prop :=
  ReflTransGen (Move w) s e

theorem Move.clearLine {w : World} {p q : Pos} (move : Move w p q) :
    ClearLine w.Free p q := by
  obtain ⟨pFree, qFree, direction, step, -, rfl⟩ := move
  exact ClearLine.of_step step pFree qFree

/-- From a position of the map the 16-bit additions are exact. -/
theorem target_eq {w : World} {p : Pos} {d : Dircost} (free : w.Free p)
    (member : d ∈ DIRECT_COST) : d.target p = p.advance ⟨d.x, d.y⟩ 1 := by
  have range := free.inMapRange
  simp only [InMapRange] at range
  have small : -1 ≤ d.x ∧ d.x ≤ 1 ∧ -1 ≤ d.y ∧ d.y ≤ 1 := by
    revert d
    decide
  simp only [Dircost.target, advance, mul_one]
  rw [toInt16_of_range (by omega) (by omega),
    toInt16_of_range (by omega) (by omega)]

theorem move_target {w : World} {p : Pos} {d : Dircost} (free : w.Free p)
    (member : d ∈ DIRECT_COST) (targetFree : w.Free (d.target p)) :
    Move w p (d.target p) := by
  have steps : ∀ d ∈ DIRECT_COST,
      IsStep ⟨d.x, d.y⟩ ∧ (⟨d.x, d.y⟩ : Pos) ≠ ⟨0, 0⟩ := by decide
  exact ⟨free, targetFree, ⟨d.x, d.y⟩, (steps d member).1,
    (steps d member).2, target_eq free member⟩

/-- The eight entries of `DIRECT_COST` are all steps. -/
theorem exists_direct_of_step {direction : Pos} (step : direction.IsStep)
    (nonzero : direction ≠ ⟨0, 0⟩) : ∃ d ∈ DIRECT_COST, direction = ⟨d.x, d.y⟩ := by
  obtain ⟨dx, dy⟩ := direction
  simp only [IsStep] at step
  have dxCases : dx = -1 ∨ dx = 0 ∨ dx = 1 := by omega
  have dyCases : dy = -1 ∨ dy = 0 ∨ dy = 1 := by omega
  rcases dxCases with rfl | rfl | rfl <;>
    rcases dyCases with rfl | rfl | rfl <;>
      first | exact absurd rfl nonzero | decide

theorem exists_target_of_move {w : World} {p q : Pos} (move : Move w p q) :
    ∃ d ∈ DIRECT_COST, q = d.target p := by
  obtain ⟨pFree, -, direction, step, nonzero, rfl⟩ := move
  obtain ⟨d, member, rfl⟩ := exists_direct_of_step step nonzero
  exact ⟨d, member, (target_eq pFree member).symm⟩

section Search

variable {w : World} {heuristic : Pos → Pos → Int} {s e : Pos} {quick : Bool}

variable (w heuristic e quick) in
/-- What `visit` can do: leave the search alone because the neighbour is
blocked or known, or discover it. -/
theorem visit_cases (popped : State) (search : Search) (d : Dircost) :
    (visit w heuristic e quick popped search d = search ∧
      (w.Free (d.target popped.pos) →
        d.target popped.pos ∈ search.closelist ∨
          (search.pres (d.target popped.pos)).isSome)) ∨
    (w.Free (d.target popped.pos) ∧
      d.target popped.pos ∉ search.closelist ∧
      search.pres (d.target popped.pos) = none ∧
      ∃ added : State, added.pos = d.target popped.pos ∧
        visit w heuristic e quick popped search d =
          { search with
            openlist := insertAfter State.weigh added search.openlist
            pres := insertLink search.pres
              (d.target popped.pos, popped.pos) }) := by
  simp only [visit, World.Free]
  split
  next blocked => exact Or.inl ⟨rfl, by simp [blocked]⟩
  next free =>
    split
    next closed => exact Or.inl ⟨rfl, fun _ => Or.inl closed⟩
    next notClosed =>
      cases present : search.pres (d.target popped.pos) with
      | some before => exact Or.inl ⟨rfl, fun _ => Or.inr rfl⟩
      | none =>
          exact Or.inr ⟨by simpa using free, notClosed, rfl, _, rfl, rfl⟩

/-- The invariant of the search apart from the exploration of closed
positions. -/
structure Invariant (w : World) (s : Pos) (search : Search) : Prop where
  openKnown : ∀ state ∈ search.openlist,
    state.pos = s ∨ (search.pres state.pos).isSome
  linkMove : ∀ p before, search.pres p = some before → Move w before p
  linkRooted : ∀ p before, search.pres p = some before →
    Rooted search.pres s p
  startUnlinked : search.pres s = none
  startClosed : s ∈ search.closelist ∨ ∀ p, search.pres p = none
  pending : ∀ p, p = s ∨ (search.pres p).isSome →
    p ∈ search.closelist ∨ ∃ state ∈ search.openlist, state.pos = p
  closedKnown : ∀ p ∈ search.closelist, p = s ∨ (search.pres p).isSome

/-- Every free neighbour of `p` is discovered. -/
def Explored (w : World) (search : Search) (p : Pos) : Prop :=
  ∀ q, Move w p q → q ∈ search.closelist ∨ (search.pres q).isSome

theorem Invariant.known_free {search : Search}
    (invariant : Invariant w s search) (startFree : w.Free s) {p : Pos}
    (known : p = s ∨ (search.pres p).isSome) : w.Free p := by
  rcases known with rfl | linked
  · exact startFree
  · obtain ⟨before, link⟩ := Option.isSome_iff_exists.mp linked
    exact (invariant.linkMove p before link).2.1

theorem Invariant.known_rooted {search : Search}
    (invariant : Invariant w s search) {p : Pos}
    (known : p = s ∨ (search.pres p).isSome) : Rooted search.pres s p := by
  rcases known with rfl | linked
  · exact ReflTransGen.refl
  · obtain ⟨before, link⟩ := Option.isSome_iff_exists.mp linked
    exact invariant.linkRooted p before link

theorem isSome_of_extends {links later : Pos → Option Pos} {p : Pos}
    (grows : Extends later links) (linked : (links p).isSome) :
    (later p).isSome := by
  obtain ⟨before, link⟩ := Option.isSome_iff_exists.mp linked
  rw [grows p before link]
  rfl

/-- Discovering a new free neighbour of a closed position keeps the
invariant. -/
theorem Invariant.discover {search : Search} {p q : Pos} {added : State}
    (invariant : Invariant w s search) (closed : p ∈ search.closelist)
    (move : Move w p q) (notClosed : q ∉ search.closelist)
    (absent : search.pres q = none) (addedPos : added.pos = q) :
    Invariant w s { search with
      openlist := insertAfter State.weigh added search.openlist
      pres := insertLink search.pres (q, p) } := by
  have grows := insertLink_extends search.pres (q, p)
  have startClosed : s ∈ search.closelist := by
    rcases invariant.startClosed with started | fresh
    · exact started
    · rcases invariant.closedKnown p closed with rfl | linked
      · exact closed
      · simp [fresh p] at linked
  have rootedBefore : Rooted search.pres s p :=
    invariant.known_rooted (invariant.closedKnown p closed)
  refine ⟨?_, ?_, ?_, ?_, Or.inl startClosed, ?_, ?_⟩
  · intro state member
    rcases mem_insertAfter.mp member with rfl | member
    · right
      rw [addedPos]
      exact insertLink_isSome search.pres (q, p)
    · exact (invariant.openKnown state member).imp_right
        (isSome_of_extends grows)
  · intro target before link
    rcases insertLink_eq_some link with old | ⟨-, same⟩
    · exact invariant.linkMove target before old
    · obtain ⟨rfl, rfl⟩ := Prod.mk.inj same
      exact move
  · intro target before link
    rcases insertLink_eq_some link with old | ⟨-, same⟩
    · exact (invariant.linkRooted target before old).mono grows
    · obtain ⟨rfl, rfl⟩ := Prod.mk.inj same
      exact Rooted.of_link link (rootedBefore.mono grows)
  · rw [insertLink_eq_none]
    refine ⟨invariant.startUnlinked, ?_⟩
    rintro rfl
    exact notClosed startClosed
  · intro target known
    by_cases isNew : target = q
    · subst target
      exact Or.inr ⟨added, mem_insertAfter.mpr (Or.inl rfl), addedPos⟩
    · have oldKnown : target = s ∨ (search.pres target).isSome := by
        refine known.imp_right fun linked => ?_
        obtain ⟨before, link⟩ := Option.isSome_iff_exists.mp linked
        rcases insertLink_eq_some link with old | ⟨-, same⟩
        · simp [old]
        · exact absurd (Prod.mk.inj same).1 isNew
      rcases invariant.pending target oldKnown with done | ⟨state, member, rfl⟩
      · exact Or.inl done
      · exact Or.inr ⟨state, mem_insertAfter.mpr (Or.inr member), rfl⟩
  · intro target member
    exact (invariant.closedKnown target member).imp_right
      (isSome_of_extends grows)

/-- What the loop over `DIRECT_COST` keeps and reaches. -/
structure Visited (w : World) (s : Pos) (popped : Pos) (before after : Search)
    (directions : List Dircost) : Prop where
  invariant : Invariant w s after
  closelist : after.closelist = before.closelist
  grows : Extends after.pres before.pres
  discovered : ∀ d ∈ directions, w.Free (d.target popped) →
    d.target popped ∈ after.closelist ∨ (after.pres (d.target popped)).isSome

theorem visited_foldl {popped : State} {search : Search}
    {directions : List Dircost} (listed : ∀ d ∈ directions, d ∈ DIRECT_COST)
    (invariant : Invariant w s search)
    (closed : popped.pos ∈ search.closelist) (free : w.Free popped.pos) :
    Visited w s popped.pos search
      (directions.foldl (visit w heuristic e quick popped) search)
      directions := by
  induction directions generalizing search with
  | nil => exact ⟨invariant, rfl, Extends.refl _, by simp⟩
  | cons d directions ih =>
      rw [List.foldl_cons]
      have listedTail : ∀ d ∈ directions, d ∈ DIRECT_COST :=
        fun d member => listed d (List.mem_cons_of_mem _ member)
      rcases visit_cases w heuristic e quick popped search d with
        ⟨same, known⟩ | ⟨targetFree, notClosed, absent, added, addedPos, step⟩
      · rw [same]
        obtain ⟨kept, closelist, grows, discovered⟩ :=
          ih listedTail invariant closed
        refine ⟨kept, closelist, grows, ?_⟩
        rintro target (_ | ⟨_, member⟩) targetFree
        · rw [closelist]
          exact (known targetFree).imp_right (isSome_of_extends grows)
        · exact discovered target member targetFree
      · have move := move_target free (listed d List.mem_cons_self) targetFree
        have kept := invariant.discover closed move notClosed absent addedPos
        rw [step]
        obtain ⟨kept, closelist, grows, discovered⟩ :=
          ih listedTail kept closed
        refine ⟨kept, closelist,
          grows.trans (insertLink_extends search.pres _), ?_⟩
        rintro target (_ | ⟨_, member⟩) targetFree
        · right
          exact isSome_of_extends grows (insertLink_isSome search.pres _)
        · exact discovered target member targetFree

/-- The invariant at the head of the open-list loop. -/
structure LoopInvariant (w : World) (s e : Pos) (search : Search) : Prop where
  links : Invariant w s search
  explored : ∀ p ∈ search.closelist, p ≠ e ∧ Explored w search p

theorem loopInvariant_start :
    LoopInvariant w s e (start heuristic e s) := by
  refine ⟨⟨?_, ?_, ?_, rfl, Or.inr fun _ => rfl, ?_, ?_⟩, ?_⟩
  · intro state member
    rw [start, List.mem_singleton] at member
    subst state
    exact Or.inl rfl
  · intro p before link
    simp [start] at link
  · intro p before link
    simp [start] at link
  · intro p known
    have atStart : p = s := by simpa [start] using known
    subst p
    exact Or.inr ⟨_, List.mem_singleton.mpr rfl, rfl⟩
  · intro p member
    simp [start] at member
  · intro p member
    simp [start] at member

/-- Popping a state whose position is or becomes closed keeps the invariant. -/
theorem Invariant.pop {search : Search} {popped : State}
    {openlist : List State} {closelist : List Pos}
    (invariant : Invariant w s search)
    (opened : search.openlist = popped :: openlist)
    (closes : closelist = search.closelist ∧ popped.pos ∈ search.closelist ∨
      closelist = popped.pos :: search.closelist) :
    Invariant w s { search with openlist, closelist } := by
  have poppedKnown := invariant.openKnown popped (by simp [opened])
  have stillClosed : ∀ p ∈ search.closelist, p ∈ closelist := by
    rcases closes with ⟨rfl, -⟩ | rfl
    · exact fun _ => id
    · exact fun _ => List.mem_cons_of_mem _
  have poppedClosed : popped.pos ∈ closelist := by
    rcases closes with ⟨rfl, closed⟩ | rfl
    · exact closed
    · exact List.mem_cons_self
  refine ⟨?_, invariant.linkMove, invariant.linkRooted,
    invariant.startUnlinked, ?_, ?_, ?_⟩
  · intro state member
    exact invariant.openKnown state (by simp [opened, member])
  · rcases invariant.startClosed with closed | fresh
    · exact Or.inl (stillClosed s closed)
    · have atStart : popped.pos = s := by simpa [fresh] using poppedKnown
      exact Or.inl (atStart ▸ poppedClosed)
  · intro p known
    rcases invariant.pending p known with closed | ⟨state, member, rfl⟩
    · exact Or.inl (stillClosed p closed)
    · rw [opened] at member
      rcases List.mem_cons.mp member with rfl | member
      · exact Or.inl poppedClosed
      · exact Or.inr ⟨state, member, rfl⟩
  · intro p member
    rcases closes with ⟨rfl, -⟩ | rfl
    · exact invariant.closedKnown p member
    · rcases List.mem_cons.mp member with rfl | member
      · exact poppedKnown
      · exact invariant.closedKnown p member

variable (w heuristic e quick) in
theorem findBody_cases (search : Search) :
    (search.openlist = [] ∧ findBody w heuristic e quick search = .inr none) ∨
    ∃ popped openlist, search.openlist = popped :: openlist ∧
      ((popped.pos = e ∧
          findBody w heuristic e quick search = .inr (some search.pres)) ∨
        (popped.pos ∈ search.closelist ∧
          findBody w heuristic e quick search =
            .inl { search with openlist }) ∨
        (popped.pos ≠ e ∧ popped.pos ∉ search.closelist ∧
          findBody w heuristic e quick search =
            .inl (DIRECT_COST.foldl (visit w heuristic e quick popped)
              { search with
                openlist
                closelist := popped.pos :: search.closelist }))) := by
  cases opened : search.openlist with
  | nil => exact Or.inl ⟨rfl, by simp [findBody, opened]⟩
  | cons popped openlist =>
      refine Or.inr ⟨popped, openlist, rfl, ?_⟩
      simp only [findBody, opened]
      split
      next atEnd => exact Or.inl ⟨atEnd, rfl⟩
      next notEnd =>
        split
        next closed => exact Or.inr (Or.inl ⟨closed, rfl⟩)
        next notClosed => exact Or.inr (Or.inr ⟨notEnd, notClosed, rfl⟩)

theorem Explored.mono {before after : Search} {p : Pos}
    (explored : Explored w before p)
    (closed : ∀ q ∈ before.closelist, q ∈ after.closelist)
    (grows : Extends after.pres before.pres) : Explored w after p :=
  fun q move => (explored q move).imp (closed q) (isSome_of_extends grows)

theorem loopInvariant_step {search after : Search} (startFree : w.Free s)
    (invariant : LoopInvariant w s e search)
    (step : findBody w heuristic e quick search = .inl after) :
    LoopInvariant w s e after := by
  obtain ⟨links, explored⟩ := invariant
  rcases findBody_cases w heuristic e quick search with
    ⟨-, exits⟩ | ⟨popped, openlist, opened,
      ⟨-, exits⟩ | ⟨closed, continues⟩ | ⟨notEnd, -, continues⟩⟩
  · simp [exits] at step
  · simp [exits] at step
  · obtain rfl := Sum.inl.inj (continues.symm.trans step)
    exact ⟨links.pop opened (Or.inl ⟨rfl, closed⟩), explored⟩
  · obtain rfl := Sum.inl.inj (continues.symm.trans step)
    have kept := links.pop opened (Or.inr rfl)
    have free := links.known_free startFree
      (links.openKnown popped (by simp [opened]))
    have visited : Visited w s popped.pos _
        (DIRECT_COST.foldl (visit w heuristic e quick popped) _) DIRECT_COST :=
      visited_foldl (fun _ member => member) kept List.mem_cons_self free
    obtain ⟨kept, closelist, grows, discovered⟩ := visited
    refine ⟨kept, ?_⟩
    intro p member
    rw [closelist] at member
    rcases List.mem_cons.mp member with rfl | member
    · refine ⟨notEnd, ?_⟩
      intro q move
      obtain ⟨d, listed, rfl⟩ := exists_target_of_move move
      exact discovered d listed move.2.1
    · refine ⟨(explored p member).1, (explored p member).2.mono ?_ grows⟩
      intro q closed
      rw [closelist]
      exact List.mem_cons_of_mem _ closed

/-- The positions of the map. -/
def cells (w : World) : Finset Pos :=
  rectangle ⟨0, 0⟩ w.len.toNat w.wid.toNat

theorem Free.mem_cells {p : Pos} (free : w.Free p) : p ∈ cells w := by
  have inside := (w.inarea_iff p).mp free.inarea
  apply mem_rectangle <;> simp only <;> omega

/-- Popping a state costs one, discovering a position frees two and spends
one. -/
def potential (w : World) (search : Search) : Nat :=
  2 * unlinkedCount (cells w) search.pres + search.openlist.length

theorem potential_visit (popped : State) (search : Search) (d : Dircost) :
    potential w (visit w heuristic e quick popped search d) ≤
      potential w search := by
  rcases visit_cases w heuristic e quick popped search d with
    ⟨same, -⟩ | ⟨free, -, absent, added, -, step⟩
  · rw [same]
  · rw [step]
    have fewer : unlinkedCount (cells w)
        (insertLink search.pres (d.target popped.pos, popped.pos)) <
          unlinkedCount (cells w) search.pres :=
      unlinkedCount_insertLink_lt (Free.mem_cells free) absent
    simp only [potential, length_insertAfter]
    omega

theorem potential_step {search after : Search}
    (step : findBody w heuristic e quick search = .inl after) :
    potential w after < potential w search := by
  have folded : ∀ (popped : State) (directions : List Dircost)
      (before : Search),
      potential w (directions.foldl (visit w heuristic e quick popped) before) ≤
        potential w before := by
    intro popped directions
    induction directions with
    | nil => exact fun _ => le_rfl
    | cons d directions ih =>
        exact fun before => (ih _).trans (potential_visit popped before d)
  rcases findBody_cases w heuristic e quick search with
    ⟨-, exits⟩ | ⟨popped, openlist, opened,
      ⟨-, exits⟩ | ⟨-, continues⟩ | ⟨-, -, continues⟩⟩
  · simp [exits] at step
  · simp [exits] at step
  · obtain rfl := Sum.inl.inj (continues.symm.trans step)
    simp [potential, opened]
  · obtain rfl := Sum.inl.inj (continues.symm.trans step)
    refine lt_of_le_of_lt (folded popped _ _) ?_
    simp [potential, opened]

/-- When the open list runs empty, the closed positions are all that can be
reached. -/
theorem not_reachable_of_empty {search : Search}
    (invariant : LoopInvariant w s e search)
    (empty : search.openlist = []) : ¬ Reachable w s e := by
  have closed : ∀ p, p = s ∨ (search.pres p).isSome → p ∈ search.closelist := by
    intro p known
    simpa [empty] using invariant.links.pending p known
  have reached : ∀ p, Reachable w s p → p ∈ search.closelist := by
    intro p reaches
    induction reaches with
    | refl => exact closed s (Or.inl rfl)
    | @tail middle last _ move ih =>
        rcases (invariant.explored middle ih).2 last move with done | linked
        · exact done
        · exact closed last (Or.inr linked)
  intro reaches
  exact (invariant.explored e (reached e reaches)).1 rfl

theorem reachable_of_rooted {search : Search} (links : Invariant w s search)
    {p : Pos} (rooted : Rooted search.pres s p) : Reachable w s p := by
  unfold Rooted at rooted
  induction rooted using ReflTransGen.head_induction_on with
  | refl => exact ReflTransGen.refl
  | head link _ ih => exact ih.tail (links.linkMove _ _ link)

/-- Between different free positions, `find` is the search itself. -/
theorem finds_iff (startFree : w.Free s) (endFree : w.Free e) (different : s ≠ e)
    {ret : List Pos} : Finds w heuristic e quick s ret ↔
      ∃ fuel, findPath (findBody w heuristic e quick) (start heuristic e s) e fuel =
        some ret := by
  have startOpen : w.isblock s = false := startFree
  have endOpen : w.isblock e = false := endFree
  simp only [Finds, find, startOpen, endOpen, Bool.or_self, Bool.false_eq_true,
    if_false, different]

theorem Finds.unique (startFree : w.Free s) (endFree : w.Free e) (different : s ≠ e)
    {ret other : List Pos} (first : Finds w heuristic e quick s ret)
    (second : Finds w heuristic e quick s other) : other = ret := by
  rw [finds_iff startFree endFree different] at first second
  exact findPath_unique first second

variable (w heuristic s e quick) in
/-- The loop over the open list ends. -/
theorem exists_returns_findBody : ∃ found,
    Returns (findBody w heuristic e quick) (start heuristic e s) found :=
  exists_returns_of_measure (fun _ => True) (potential w)
    (fun _ _ _ step => ⟨trivial, potential_step step⟩) trivial

/-- The predecessors found when the end is popped lead from it to the start
on clear steps. -/
theorem search_result {found : Option (Pos → Option Pos)}
    (startFree : w.Free s)
    (returns : Returns (findBody w heuristic e quick) (start heuristic e s)
      found) :
    match found with
    | none => ¬ Reachable w s e
    | some pres => pres s = none ∧ Rooted pres s e ∧ Reachable w s e ∧
        ∀ p before, pres p = some before → ClearLine w.Free before p ∧
          Rooted pres s p := by
  obtain ⟨fuel, returned⟩ := returns
  obtain ⟨last, invariant, -, exits⟩ :=
    exit_of_invariant (LoopInvariant w s e)
      (fun _ _ kept step => loopInvariant_step startFree kept step)
      loopInvariant_start returned
  rcases findBody_cases w heuristic e quick last with
    ⟨empty, exited⟩ | ⟨popped, openlist, opened,
      ⟨atEnd, exited⟩ | ⟨-, continues⟩ | ⟨-, continues⟩⟩
  · obtain rfl := Sum.inr.inj (exited.symm.trans exits)
    exact not_reachable_of_empty invariant empty
  · obtain rfl := Sum.inr.inj (exited.symm.trans exits)
    have known := invariant.links.openKnown popped (by simp [opened])
    rw [atEnd] at known
    have rooted := invariant.links.known_rooted known
    exact ⟨invariant.links.startUnlinked, rooted,
      reachable_of_rooted invariant.links rooted,
      fun p before link => ⟨(invariant.links.linkMove p before link).clearLine,
        invariant.links.linkRooted p before link⟩⟩
  · simp [continues] at exits
  · simp [continues] at exits

end Search

/-- `Astar::find` terminates on every map for every heuristic; it returns the
empty path exactly when there is nothing to find, and otherwise waypoints from
the end to the start on clear lines. -/
theorem find_correct (w : World) (heuristic : Pos → Pos → Int) (s e : Pos)
    (quick : Bool) :
    ∃ ret, Finds w heuristic e quick s ret ∧
      (∀ other, Finds w heuristic e quick s other → other = ret) ∧
      (ret = [] ↔
        s = e ∨ w.isblock s = true ∨ w.isblock e = true ∨
          ¬ Reachable w s e) ∧
      (ret ≠ [] → ret.head? = some e ∧ ret.getLast? = some s ∧
        ret.IsChain (ClearLine w.Free)) := by
  by_cases blocked : w.isblock s = true ∨ w.isblock e = true
  · have immediate : ∀ fuel, find w heuristic e quick s fuel = some [] := by
      intro fuel
      simp [find, blocked]
    refine ⟨[], ⟨0, immediate 0⟩, ?_, by tauto, fun nonempty => absurd rfl nonempty⟩
    rintro other ⟨fuel, returned⟩
    exact Option.some.inj (returned.symm.trans (immediate fuel))
  have startFree : w.Free s := by
    simp only [World.Free]
    simp_all
  have endFree : w.Free e := by
    simp only [World.Free]
    simp_all
  by_cases same : s = e
  · have immediate : ∀ fuel, find w heuristic e quick s fuel = some [] := by
      intro fuel
      simp [find, same]
    refine ⟨[], ⟨0, immediate 0⟩, ?_, by tauto, fun nonempty => absurd rfl nonempty⟩
    rintro other ⟨fuel, returned⟩
    exact Option.some.inj (returned.symm.trans (immediate fuel))
  obtain ⟨found, returns⟩ := exists_returns_findBody w heuristic s e quick
  have spec := search_result startFree returns
  cases found with
  | none =>
      have finds : Finds w heuristic e quick s [] :=
        (finds_iff startFree endFree same).mpr
          (exists_findPath_iff.mpr (Or.inl ⟨returns, rfl⟩))
      exact ⟨[], finds, fun _ => finds.unique startFree endFree same, by tauto,
        fun nonempty => absurd rfl nonempty⟩
  | some pres =>
      obtain ⟨unlinked, rooted, reachable, linked⟩ := spec
      have walked : ∃ waypoints,
          Returns (walkBackBody pres mergesWaypoint) (e, [e]) waypoints :=
        walkBack_returns unlinked rooted [e]
      obtain ⟨waypoints, walks⟩ := walked
      obtain ⟨first, firstUnlinked, leads, path⟩ :=
        walkBack_isPath (fun _ free => World.Free.inMapRange free)
          (fun p before link => (linked p before link).1) walks
      obtain rfl := rooted.eq_of_unlinked unlinked firstUnlinked leads
      have finds : Finds w heuristic e quick first waypoints.reverse :=
        (finds_iff startFree endFree same).mpr
          (exists_findPath_iff.mpr (Or.inr ⟨pres, waypoints, returns, walks, rfl⟩))
      have nonempty : waypoints ≠ [] := by
        rintro rfl
        simpa using path.head
      refine ⟨waypoints.reverse, finds, fun _ => finds.unique startFree endFree same, ?_, ?_⟩
      · simp only [List.reverse_eq_nil_iff, nonempty, false_iff]
        tauto
      · intro _
        exact ⟨path.head, path.last, path.clear⟩

end Astar

end LuaServer
