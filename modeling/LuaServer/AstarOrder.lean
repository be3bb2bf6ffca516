import LuaServer.AstarPathCosts

/-!
# The order of the A* search

The search closes positions in the order of their weights, which are the costs at which they
were discovered first and the distances to the end, and the end follows as soon as it is
discovered.  The path it returns costs as much as the end when it was discovered first.
-/

namespace LuaServer

namespace Astar

open GridCell MachineIntegers PredecessorLinks OrderedMultisets FueledLoops Relation
  FirstDiscoveries

theorem move_iff {w : World} {p q : Pos} : Move w p q ↔
    w.Free p ∧ w.Free q ∧ ∃ d ∈ DIRECT_COST, q = p.advance ⟨d.x, d.y⟩ 1 := by
  constructor
  · intro move
    obtain ⟨d, listed, isTarget⟩ := exists_target_of_move move
    exact ⟨move.1, move.2.1, d, listed, isTarget.trans (target_eq move.1 listed)⟩
  · rintro ⟨pFree, qFree, d, listed, rfl⟩
    have same := target_eq pFree listed
    rw [← same] at qFree ⊢
    exact move_target pFree listed qFree

instance (w : World) : DecidableRel (Move w) :=
  fun _ _ => decidable_of_iff _ move_iff.symm

/-- The weight of a position that was discovered at some cost; that of the end is 0. -/
def weigh (e p : Pos) (known : Nat) : Int :=
  if p = e then 0 else toInt32 (known + cost p e)

section Order

variable {w : World} {s e : Pos} {search : Search}

/-- The open list holds the positions that were discovered and not closed with their costs and
weights, and positions have been closed in order. -/
structure Ordered (w : World) (s e : Pos) (search : Search) : Prop where
  inOrder : ClosedInOrder (Move w) lineCost (weigh e) s e search.closelist
  states : ∀ state ∈ search.openlist, ∃ known,
    firstCost (Move w) lineCost s search.closelist state.pos = some known ∧
      state.cost = toInt32 known ∧ state.weigh = weigh e state.pos known
  found : ∀ p total, firstCost (Move w) lineCost s search.closelist p = some total →
    p = s ∨ (search.pres p).isSome
  linked : ∀ p total, p = s ∨ (search.pres p).isSome →
    firstCost (Move w) lineCost s search.closelist p = some total →
      LinkCost search.pres lineCost s p total
  sorted : search.openlist.Pairwise fun first second => first.weigh ≤ second.weigh

theorem pairwise_insertAfter {added : State} {states : List State}
    (sorted : states.Pairwise fun first second => first.weigh ≤ second.weigh) :
    (insertAfter State.weigh added states).Pairwise fun first second =>
      first.weigh ≤ second.weigh := by
  induction states with
  | nil => exact List.pairwise_singleton _ _
  | cons head tail ih =>
      obtain ⟨least, tailSorted⟩ := List.pairwise_cons.mp sorted
      rw [insertAfter]
      split
      next less =>
        refine List.pairwise_cons.mpr ⟨fun state member => ?_, sorted⟩
        rcases List.mem_cons.mp member with rfl | inTail
        · exact less.le
        · exact less.le.trans (least state inTail)
      next notLess =>
        refine List.pairwise_cons.mpr ⟨fun state member => ?_, ih tailSorted⟩
        rcases mem_insertAfter.mp member with rfl | inTail
        · exact not_lt.mp notLess
        · exact least state inTail

/-- The first state in the open list is the next one. -/
theorem Ordered.isNext (ordered : Ordered w s e search) (invariant : Invariant w s search)
    {popped : State} {openlist : List State} (opened : search.openlist = popped :: openlist)
    (fresh : popped.pos ∉ search.closelist) :
    IsNext (Move w) lineCost (weigh e) s search.closelist popped.pos := by
  obtain ⟨known, isKnown, -, weighs⟩ := ordered.states popped (by simp [opened])
  refine ⟨fresh, known, isKnown, fun other notClosed total isTotal => ?_⟩
  rw [← weighs]
  rcases invariant.pending other (ordered.found other total isTotal) with
    closed | ⟨state, member, rfl⟩
  · exact absurd closed notClosed
  · obtain ⟨also, isAlso, -, weighsAlso⟩ := ordered.states state member
    obtain rfl := Option.some.inj (isTotal.symm.trans isAlso)
    rw [← weighsAlso]
    have sorted := ordered.sorted
    rw [opened] at sorted member
    rcases List.mem_cons.mp member with rfl | later
    · exact le_refl _
    · exact (List.pairwise_cons.mp sorted).1 state later

/-- A step of the table costs what the line to its target does. -/
theorem lineCost_target {p : Pos} {d : Dircost} (free : w.Free p) (listed : d ∈ DIRECT_COST) :
    (lineCost p (d.target p) : Int) = d.cost := by
  have steps : ∀ d ∈ DIRECT_COST, IsStep ⟨d.x, d.y⟩ ∧ (⟨d.x, d.y⟩ : Pos) ≠ ⟨0, 0⟩ ∧
      (directCost ⟨d.x, d.y⟩ : Int) = d.cost := by decide
  obtain ⟨step, nonzero, same⟩ := steps d listed
  have isLine := lineCost_advance step nonzero Nat.one_pos p
  rw [Nat.cast_one, Nat.one_mul] at isLine
  rw [target_eq free listed, isLine, same]

/-- The search while it looks at the neighbours of a closed position: what was discovered
before and what it has discovered now is linked at its first cost. -/
structure Discovering (w : World) (s e p : Pos) (before : List Pos) (search : Search) :
    Prop where
  invariant : Invariant w s search
  closelist : search.closelist = p :: before
  states : ∀ state ∈ search.openlist, ∃ known,
    firstCost (Move w) lineCost s (p :: before) state.pos = some known ∧
      state.cost = toInt32 known ∧ state.weigh = weigh e state.pos known
  found : ∀ q total, firstCost (Move w) lineCost s before q = some total →
    q = s ∨ (search.pres q).isSome
  linked : ∀ q total, q = s ∨ (search.pres q).isSome →
    firstCost (Move w) lineCost s (p :: before) q = some total →
      LinkCost search.pres lineCost s q total
  sorted : search.openlist.Pairwise fun first second => first.weigh ≤ second.weigh

/-- What `visit` puts into the open list for a new position. -/
theorem visit_of_new {popped : State} {d : Dircost} (free : w.Free (d.target popped.pos))
    (notClosed : d.target popped.pos ∉ search.closelist)
    (absent : search.pres (d.target popped.pos) = none) :
    ∃ added : State, added.pos = d.target popped.pos ∧
      added.cost = toInt32 (popped.cost + d.cost) ∧
      (added.weigh = if d.target popped.pos = e then 0
        else toInt32 (toInt32 (popped.cost + d.cost) + cost (d.target popped.pos) e)) ∧
      visit w cost e false popped search d = { search with
        openlist := insertAfter State.weigh added search.openlist
        pres := insertLink search.pres (d.target popped.pos, popped.pos) } := by
  have isFree : w.isblock (d.target popped.pos) = false := free
  simp only [visit, isFree, notClosed, absent, if_false, Bool.false_eq_true]
  exact ⟨_, rfl, rfl, rfl, rfl⟩

theorem Discovering.visit {p : Pos} {before : List Pos} {popped : State} {known : Nat}
    (discovering : Discovering w s e p before search) (isPopped : popped.pos = p)
    (poppedFree : w.Free p) (isKnown : firstCost (Move w) lineCost s before p = some known)
    (isCost : popped.cost = toInt32 known) {d : Dircost} (listed : d ∈ DIRECT_COST) :
    Discovering w s e p before (visit w cost e false popped search d) := by
  subst isPopped
  rcases visit_cases w cost e false popped search d with
    ⟨same, -⟩ | ⟨free, notClosed, absent, -⟩
  · rw [same]
    exact discovering
  · obtain ⟨added, addedPos, addedCost, addedWeigh, isVisit⟩ :=
      visit_of_new (e := e) free notClosed absent
    have closed : popped.pos ∈ search.closelist :=
      discovering.closelist ▸ List.mem_cons_self
    have move := move_target poppedFree listed free
    have grows := insertLink_extends search.pres (d.target popped.pos, popped.pos)
    have notStart : d.target popped.pos ≠ s := by
      rintro isStart
      rcases discovering.invariant.pending s (Or.inl rfl) with startClosed | ⟨state, -, -⟩
      · exact notClosed (isStart ▸ startClosed)
      · rcases discovering.invariant.startClosed with startClosed | fresh
        · exact notClosed (isStart ▸ startClosed)
        · rcases discovering.invariant.closedKnown popped.pos closed with isFirst | linked
          · rw [isStart, ← isFirst] at notClosed
            exact notClosed closed
          · simp [fresh] at linked
    have isNew : firstCost (Move w) lineCost s before (d.target popped.pos) = none := by
      rw [Option.eq_none_iff_forall_ne_some]
      intro total isTotal
      rcases discovering.found _ total isTotal with isStart | linked
      · exact notStart isStart
      · simp [absent] at linked
    have isFirst := firstCost_cons_of_move isNew move isKnown
    have stepCost := lineCost_target poppedFree listed
    have addedTotal : toInt32 (popped.cost + d.cost) =
        toInt32 ((known + lineCost popped.pos (d.target popped.pos) : Nat) : Int) := by
      rw [isCost, toInt32_toInt32_add, ← stepCost]
      push_cast
      rfl
    have poppedLinked : LinkCost search.pres lineCost s popped.pos known :=
      discovering.linked popped.pos known
        (discovering.invariant.closedKnown popped.pos closed) (firstCost_cons_of_some isKnown)
    rw [isVisit]
    refine ⟨discovering.invariant.discover closed move notClosed absent addedPos,
      discovering.closelist, ?_, ?_, ?_, pairwise_insertAfter discovering.sorted⟩
    · intro state member
      rcases mem_insertAfter.mp member with rfl | old
      · refine ⟨_, addedPos ▸ isFirst, addedCost.trans addedTotal, ?_⟩
        rw [addedWeigh, addedPos, weigh, addedTotal, toInt32_toInt32_add]
      · exact discovering.states state old
    · intro q total isTotal
      exact (discovering.found q total isTotal).imp_right (isSome_of_extends grows)
    · intro q total isLinked isTotal
      by_cases same : q = d.target popped.pos
      · subst same
        obtain rfl := Option.some.inj (isTotal.symm.trans isFirst)
        refine (poppedLinked.mono grows).link ?_
        rw [insertLink_of_none absent]
        exact Function.update_self _ _ _
      · refine (discovering.linked q total (isLinked.imp_right fun linked => ?_) isTotal).mono grows
        rw [insertLink_of_none absent] at linked
        simpa [same] using linked

theorem Discovering.foldl {p : Pos} {before : List Pos} {popped : State} {known : Nat}
    (discovering : Discovering w s e p before search) (isPopped : popped.pos = p)
    (poppedFree : w.Free p) (isKnown : firstCost (Move w) lineCost s before p = some known)
    (isCost : popped.cost = toInt32 known) {directions : List Dircost}
    (listed : ∀ d ∈ directions, d ∈ DIRECT_COST) :
    Discovering w s e p before (directions.foldl (Astar.visit w cost e false popped) search) := by
  induction directions generalizing search with
  | nil => exact discovering
  | cons d directions ih =>
      rw [List.forall_mem_cons] at listed
      exact ih (discovering.visit isPopped poppedFree isKnown isCost listed.1) listed.2

/-- A round keeps the order. -/
theorem Ordered.step (ordered : Ordered w s e search) (startFree : w.Free s)
    (invariant : LoopInvariant w s e search) {after : Search}
    (step : findBody w cost e false search = .inl after) : Ordered w s e after := by
  have afterInvariant := loopInvariant_step startFree invariant step
  rcases findBody_cases w cost e false search with
    ⟨-, exits⟩ | ⟨popped, openlist, opened,
      ⟨-, exits⟩ | ⟨-, continues⟩ | ⟨notEnd, notClosed, continues⟩⟩
  · simp [exits] at step
  · simp [exits] at step
  · obtain rfl := Sum.inl.inj (continues.symm.trans step)
    have sorted := ordered.sorted
    rw [opened] at sorted
    exact { ordered with
      states := fun state member => ordered.states state (by simp [opened, member])
      sorted := (List.pairwise_cons.mp sorted).2 }
  · have isAfter := Sum.inl.inj (continues.symm.trans step)
    have poppedKnown := invariant.links.openKnown popped (by simp [opened])
    have free := invariant.links.known_free startFree poppedKnown
    obtain ⟨known, isKnown, isCost, -⟩ := ordered.states popped (by simp [opened])
    have sorted := ordered.sorted
    rw [opened] at sorted
    have discovering : Discovering w s e popped.pos search.closelist
        { search with openlist, closelist := popped.pos :: search.closelist } := by
      refine ⟨invariant.links.pop opened (Or.inr rfl), rfl, fun state member => ?_,
        ordered.found, fun q total isLinked isTotal => ?_, (List.pairwise_cons.mp sorted).2⟩
      · obtain ⟨total, isTotal, costs⟩ := ordered.states state (by simp [opened, member])
        exact ⟨total, firstCost_cons_of_some isTotal, costs⟩
      · rcases firstCost_cons_eq_some isTotal with old | ⟨isNew, move, -⟩
        · exact ordered.linked q total isLinked old
        · -- A position with a link has been discovered.
          exfalso
          rcases invariant.links.pending q isLinked with closed | ⟨state, member, rfl⟩
          · obtain ⟨also, isAlso⟩ := ordered.inOrder.exists_firstCost closed
            exact absurd (isNew.symm.trans isAlso) (by simp)
          · obtain ⟨also, isAlso, -⟩ := ordered.states state member
            exact absurd (isNew.symm.trans isAlso) (by simp)
    have discovered := discovering.foldl rfl free isKnown isCost (fun _ member => member)
    rw [isAfter] at discovered
    have inOrder : ClosedInOrder (Move w) lineCost (weigh e) s e after.closelist := by
      rw [discovered.closelist]
      exact .close ordered.inOrder (ordered.isNext invariant.links opened notClosed) notEnd
    refine ⟨inOrder, ?_, ?_, ?_, discovered.sorted⟩
    · rw [discovered.closelist]
      exact discovered.states
    · intro q total isTotal
      rw [discovered.closelist] at isTotal
      rcases firstCost_cons_eq_some isTotal with old | ⟨-, move, -⟩
      · exact discovered.found q total old
      · have closed : popped.pos ∈ after.closelist :=
          discovered.closelist ▸ List.mem_cons_self
        rcases (afterInvariant.explored popped.pos closed).2 q move with isClosed | linked
        · exact discovered.invariant.closedKnown q isClosed
        · exact Or.inr linked
    · rw [discovered.closelist]
      exact discovered.linked

theorem Reachable.free (different : s ≠ e) (reachable : Reachable w s e) :
    w.Free s ∧ w.Free e := by
  rcases reachable.cases_head with rfl | ⟨next, first, rest⟩
  · exact absurd rfl different
  · refine ⟨first.1, ?_⟩
    rcases rest.cases_tail with rfl | ⟨before, _, final⟩
    · exact first.2.1
    · exact final.2.1

/-- The distance between positions of the map is far from overflowing. -/
theorem cost_range {p q : Pos} (pFree : w.Free p) (qFree : w.Free q) :
    0 ≤ cost p q ∧ cost p q ≤ 4700000 := by
  have pRange := pFree.inMapRange
  have qRange := qFree.inMapRange
  simp only [InMapRange] at pRange qRange
  refine ⟨Int.natCast_nonneg _, ?_⟩
  have isX : toInt16 (p.x - q.x) = p.x - q.x := toInt16_of_range (by omega) (by omega)
  have isY : toInt16 (p.y - q.y) = p.y - q.y := toInt16_of_range (by omega) (by omega)
  simp only [cost, isX, isY]
  have square : ∀ a b : Int, 0 ≤ a → a ≤ 32767 → 0 ≤ b → b ≤ 32767 →
      (a - b) * (a - b) ≤ 32767 * 32767 := by
    intro a b _ _ _ _
    nlinarith
  have xSquare := square p.x q.x (by omega) (by omega) (by omega) (by omega)
  have ySquare := square p.y q.y (by omega) (by omega) (by omega) (by omega)
  have root : Nat.sqrt (10000 * ((p.x - q.x) * (p.x - q.x) + (p.y - q.y) * (p.y - q.y)).toNat) <
      4700000 := by
    rw [Nat.sqrt_lt']
    omega
  omega

theorem ordered_start (startFree : w.Free s) (endFree : w.Free e) (different : s ≠ e) :
    Ordered w s e (start cost e s) := by
  refine ⟨.start, ?_, ?_, ?_, List.pairwise_singleton _ _⟩
  · intro state member
    rw [start, List.mem_singleton] at member
    subst state
    have range := cost_range startFree endFree
    refine ⟨0, if_pos rfl, rfl, ?_⟩
    change cost s e = weigh e s 0
    rw [weigh, if_neg different, Nat.cast_zero, zero_add, toInt32_of_range (by omega) (by omega)]
  · intro p total isTotal
    simp only [start, firstCost, Option.ite_none_right_eq_some] at isTotal
    exact Or.inl isTotal.1
  · intro p total _ isTotal
    simp only [start, firstCost, Option.ite_none_right_eq_some] at isTotal
    obtain ⟨rfl, isZero⟩ := isTotal
    obtain rfl := Option.some.inj isZero
    exact .root

/-- The path that is found costs as much as the end when it was discovered first. -/
theorem exists_firstCost (different : s ≠ e) (reachable : Reachable w s e) :
    ∃ ret closed, Finds w cost e false s ret ∧
      ClosedInOrder (Move w) lineCost (weigh e) s e closed ∧
      IsNext (Move w) lineCost (weigh e) s closed e ∧
      firstCost (Move w) lineCost s closed e = some (pathCost ret) ∧
      Way (Move w) lineCost s e (pathCost ret) := by
  obtain ⟨startFree, endFree⟩ := reachable.free different
  obtain ⟨found, fuel, returned⟩ := exists_returns_findBody w cost s e false
  have spec := search_result startFree ⟨fuel, returned⟩
  cases found with
  | none => exact absurd reachable spec
  | some pres =>
      obtain ⟨unlinked, rooted, -, -⟩ := spec
      obtain ⟨last, ⟨invariant, ordered⟩, -, exits⟩ :=
        exit_of_invariant (fun search => LoopInvariant w s e search ∧ Ordered w s e search)
          (fun _ _ kept step => ⟨loopInvariant_step startFree kept.1 step,
            kept.2.step startFree kept.1 step⟩)
          ⟨loopInvariant_start, ordered_start startFree endFree different⟩ returned
      rcases findBody_cases w cost e false last with
        ⟨-, exited⟩ | ⟨popped, openlist, opened,
          ⟨rfl, exited⟩ | ⟨-, continues⟩ | ⟨-, -, continues⟩⟩
      · exact nomatch Sum.inr.inj (exited.symm.trans exits)
      · obtain rfl := Option.some.inj (Sum.inr.inj (exits.symm.trans exited))
        obtain ⟨waypoints, walks⟩ : ∃ waypoints,
            Returns (walkBackBody last.pres mergesWaypoint) (popped.pos, [popped.pos]) waypoints :=
          walkBack_returns unlinked rooted [popped.pos]
        have isCost := linkCost_of_walkBack invariant.links rooted walks
        have fresh : popped.pos ∉ last.closelist := fun closed =>
          (invariant.explored popped.pos closed).1 rfl
        obtain ⟨known, isKnown, -⟩ := ordered.states popped (by simp [opened])
        have isLinked := ordered.linked popped.pos known
          (invariant.links.openKnown popped (by simp [opened])) isKnown
        obtain rfl := isLinked.unique unlinked isCost
        have same : pathCost waypoints.reverse = walkCost waypoints := by
          rw [pathCost, List.reverse_reverse]
        refine ⟨waypoints.reverse, last.closelist, ?_, ordered.inOrder,
          ordered.isNext invariant.links opened fresh, same ▸ isKnown,
          same ▸ isCost.way invariant.links.linkMove⟩
        exact (finds_iff startFree endFree different).mpr
          (exists_findPath_iff.mpr (Or.inr ⟨_, waypoints, ⟨fuel, returned⟩, walks, rfl⟩))
      · exact nomatch continues.symm.trans exits
      · exact nomatch continues.symm.trans exits

end Order

end Astar

end LuaServer
