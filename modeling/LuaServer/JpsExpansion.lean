import LuaServer.CanonicalGridPaths
import LuaServer.JpsPathValidity

/-!
# What the jump point search expands

Every position but the start is put on the open list at most once, because it is
linked from then on.  In a search that never pops the end, every open state is
therefore popped and expanded in all its directions.
-/

namespace LuaServer

namespace Jps

open GridCell MachineIntegers PredecessorLinks OrderedMultisets FueledLoops

/-- The open list as a queue: what is open or closed is known, every position but the
start comes up once, and a linked end is open. -/
structure Queue (q : Query) (search : Search) : Prop where
  opened : ∀ st ∈ search.openlist, Known q search.pre st.pos
  closed : ∀ p ∈ search.closelist, Known q search.pre p ∧ p ≠ q.end_
  once : search.openlist.Pairwise fun first second =>
    first.pos = second.pos → first.pos = q.start_
  fresh : ∀ st ∈ search.openlist, st.pos ∈ search.closelist → st.pos = q.start_
  ending : search.pre q.end_ ≠ none → ∃ st ∈ search.openlist, st.pos = q.end_

/-- A search goes on with a queue: nothing leaves the open list. -/
structure Goes (q : Query) (search after : Search) : Prop where
  keeps : ∀ st ∈ search.openlist, st ∈ after.openlist
  queue : Queue q search → Queue q after

namespace Goes

variable {q : Query} {search middle after : Search}

theorem refl (search : Search) : Goes q search search :=
  ⟨fun _ member => member, id⟩

theorem trans (first : Goes q search middle) (second : Goes q middle after) :
    Goes q search after :=
  ⟨fun st member => second.keeps st (first.keeps st member),
    fun queue => second.queue (first.queue queue)⟩

end Goes

section Operations

variable {q : Query} {search : Search}

theorem goes_addjp (search : Search) (s : State) (before : Pos) :
    Goes q search (addjp q search s before).1 := by
  cases linked : search.pre s.pos with
  | some old =>
      have same : (addjp q search s before).1 = search := by simp [addjp, linked]
      rw [same]
      exact Goes.refl search
  | none =>
      obtain ⟨weigh, added⟩ : ∃ weigh, (addjp q search s before).1 =
          { search with
            openlist := insertAfter State.weigh { s with weigh } search.openlist
            pre := insertLink search.pre (s.pos, before) } := by
        simp only [addjp, linked, Option.isSome_none, Bool.false_eq_true, if_false]
        exact ⟨_, rfl⟩
      rw [added]
      have grows := insertLink_extends search.pre (s.pos, before)
      have startOnly : Known q search.pre s.pos → s.pos = q.start_ := by
        rintro (isStart | isLinked)
        · exact isStart
        · simp [linked] at isLinked
      constructor
      · exact fun st member => mem_insertAfter.mpr (Or.inr member)
      · intro queue
        refine ⟨?_, ?_, ?_, ?_, ?_⟩
        · intro st member
          rcases mem_insertAfter.mp member with rfl | old
          · exact Or.inr (insertLink_isSome search.pre (s.pos, before))
          · exact (queue.opened st old).mono grows
        · exact fun p member => (queue.closed p member).imp_left fun known => known.mono grows
        · have symmetric : Std.Symm fun first second : State =>
              first.pos = second.pos → first.pos = q.start_ :=
            ⟨fun _ _ isStart same => same ▸ isStart same.symm⟩
          refine (perm_insertAfter.pairwise_iff (fun {_ _} => symmetric.symm _ _)).mpr
            (List.pairwise_cons.mpr ⟨fun st member same => ?_, queue.once⟩)
          exact startOnly (same ▸ queue.opened st member)
        · intro st member isClosed
          rcases mem_insertAfter.mp member with rfl | old
          · exact startOnly (queue.closed _ isClosed).1
          · exact queue.fresh st old isClosed
        · intro endLinked
          by_cases atEnd : s.pos = q.end_
          · exact ⟨_, mem_insertAfter.mpr (Or.inl rfl), atEnd⟩
          · have old : search.pre q.end_ ≠ none := by
              intro absent
              exact endLinked (insertLink_eq_none.mpr ⟨absent, fun same => atEnd same.symm⟩)
            obtain ⟨st, member, isEnd⟩ := queue.ending old
            exact ⟨st, mem_insertAfter.mpr (Or.inr member), isEnd⟩

theorem goes_addfn (search : Search) (s : State) (d : Pos) :
    Goes q search (addfn q search s d).1 := by
  unfold addfn
  refine List.foldlRecOn _ _ (motive := fun (found : Search × Bool) => Goes q search found.1)
    (Goes.refl search) ?_
  intro found goes neighbour _
  exact goes.trans (goes_addjp found.1 _ _)

theorem goes_stepStraight (search : Search) (st : State) (d : Pos) :
    Goes q search (stepStraight q search st d).1 := by
  simp only [stepStraight]
  split
  · exact Goes.refl search
  · split
    · exact Goes.refl search
    · split
      · exact goes_addjp search _ _
      · split
        · exact (goes_addfn search _ _).trans (goes_addjp _ _ _)
        · exact goes_addfn search _ _

/-- A position that is not the end may be linked without being opened. -/
theorem goes_setpre (search : Search) {p : Pos} (notEnd : p ≠ q.end_) (before : Pos) :
    Goes q search (setpre search p before) := by
  have grows := insertLink_extends search.pre (p, before)
  refine ⟨fun st member => member, fun queue => ⟨?_, ?_, queue.once, queue.fresh, ?_⟩⟩
  · exact fun st member => (queue.opened st member).mono grows
  · exact fun other member =>
      (queue.closed other member).imp_left fun known => known.mono grows
  · intro endLinked
    apply queue.ending
    intro absent
    exact endLinked (insertLink_eq_none.mpr ⟨absent, fun same => notEnd same.symm⟩)

end Operations

/-- The positions a phase is busy with are not the end. -/
def Phase.Avoids (q : Query) : Phase → Prop
  | .pop => True
  | .directions st _ => st.pos ≠ q.end_
  | .diagonal st _ s _ | .horizontal st _ s _ | .vertical st _ s _ _ =>
      st.pos ≠ q.end_ ∧ s.pos ≠ q.end_

section Runs

variable {q : Query} {config after : Config}

/-- A small step that does not pop goes on with the queue. -/
theorem goes_tick (notPop : config.phase ≠ .pop) (avoids : config.phase.Avoids q)
    (stepped : tick q config = .inl after) : Goes q config.search after.search := by
  obtain ⟨search, phase⟩ := config
  cases phase with
  | pop => exact absurd rfl notPop
  | directions st dirs =>
      cases dirs with
      | nil =>
          obtain rfl := Sum.inl.inj stepped
          exact Goes.refl search
      | cons d dirs =>
          simp only [tick] at stepped
          split at stepped
          · obtain rfl := Sum.inl.inj stepped
            exact goes_stepStraight search st d
          · obtain rfl := Sum.inl.inj stepped
            exact Goes.refl search
  | diagonal st d s dirs =>
      have forced := (@goes_addfn q search s ⟨d.x, 0⟩).trans
        (goes_addfn (addfn q search s ⟨d.x, 0⟩).1 s ⟨0, d.y⟩)
      simp only [tick] at stepped
      split at stepped
      · obtain rfl := Sum.inl.inj stepped
        split
        · exact forced.trans (goes_addjp _ _ _)
        · exact (forced.trans (goes_setpre _ avoids.2 _)).trans (goes_addjp _ _ _)
      · split at stepped
        · obtain rfl := Sum.inl.inj stepped
          exact forced.trans (goes_addjp _ _ _)
        · split at stepped
          · obtain rfl := Sum.inl.inj stepped
            exact forced
          · split at stepped
            · obtain rfl := Sum.inl.inj stepped
              exact forced
            · obtain rfl := Sum.inl.inj stepped
              exact forced
  | horizontal st d s dirs =>
      obtain rfl := Sum.inl.inj stepped
      exact goes_stepStraight search s ⟨d.x, 0⟩
  | vertical st d s r1 dirs =>
      have line := @goes_stepStraight q search s ⟨0, d.y⟩
      simp only [tick] at stepped
      split at stepped
      · have turned := line.trans (goes_setpre _ avoids.2 st.pos)
        split at stepped
        · obtain rfl := Sum.inl.inj stepped
          exact turned
        · obtain rfl := Sum.inl.inj stepped
          exact turned.trans (goes_addjp _ _ _)
      · obtain rfl := Sum.inl.inj stepped
        exact line

theorem Follows.avoids (follows : Follows q config after) (avoids : config.phase.Avoids q) :
    after.phase.Avoids q := by
  obtain ⟨search, phase⟩ := config
  cases phase with
  | pop => exact follows.elim
  | directions st dirs =>
      cases dirs with
      | nil =>
          have next : after.phase = .pop := follows
          exact next ▸ trivial
      | cons d dirs =>
          simp only [Follows] at follows
          split at follows
          · exact follows ▸ avoids
          · exact follows ▸ ⟨avoids, avoids⟩
  | diagonal st d s dirs =>
      rcases follows with next | ⟨next, -, notEnd, -⟩
      · exact next ▸ avoids.1
      · exact next ▸ ⟨avoids.1, notEnd⟩
  | horizontal st d s dirs =>
      have next : after.phase = _ := follows
      exact next ▸ avoids
  | vertical st d s r1 dirs =>
      rcases follows with ⟨-, next⟩ | ⟨-, next⟩
      · exact next ▸ avoids.1
      · exact next ▸ avoids

/-- Every phase but popping is followed by another configuration of the run. -/
theorem Reaches.ticks (reaches : Reaches q config) (notPop : config.phase ≠ .pop) :
    ∃ after, Ticks q config after ∧ Reaches q after := by
  obtain ⟨after, ticks⟩ := ticks_of_turns reaches.1.endFree reaches.sound.turns notPop
  exact ⟨after, ticks, reaches.next ticks.1⟩

theorem queue_initial (q : Query) : Queue q (initial q).search := by
  refine ⟨?_, by simp [initial], by simp [initial], by simp [initial], by simp [initial]⟩
  intro st member
  obtain rfl := List.mem_singleton.mp member
  exact Or.inl rfl

theorem Queue.pop {search : Search} {st : State} {openlist : List State}
    (queue : Queue q search) (opened : search.openlist = st :: openlist)
    (notEnd : st.pos ≠ q.end_) : Queue q { search with openlist } := by
  have later : ∀ other ∈ openlist, other ∈ search.openlist :=
    fun other member => opened ▸ List.mem_cons_of_mem st member
  have once := queue.once
  rw [opened] at once
  refine ⟨fun other member => queue.opened other (later other member), queue.closed,
    (List.pairwise_cons.mp once).2, fun other member => queue.fresh other (later other member), ?_⟩
  intro endLinked
  obtain ⟨other, member, isEnd⟩ := queue.ending endLinked
  rw [opened] at member
  rcases List.mem_cons.mp member with rfl | member
  · exact absurd isEnd notEnd
  · exact ⟨other, member, isEnd⟩

/-- In every configuration the open list is a queue, and no phase is busy with the
end. -/
theorem Reaches.queue (reaches : Reaches q config) :
    Queue q config.search ∧ config.phase.Avoids q := by
  obtain ⟨searches, run⟩ := reaches
  induction run with
  | refl => exact ⟨queue_initial q, trivial⟩
  | @tail config after run stepped ih =>
      obtain ⟨queue, avoids⟩ := ih
      have reaches : Reaches q config := ⟨searches, run⟩
      by_cases popping : config.phase = .pop
      · obtain ⟨search, phase⟩ := config
        simp only at popping queue
        subst popping
        rcases tick_pop q search with ⟨-, exits⟩ | ⟨st, openlist, opened,
          ⟨isClosed, continues⟩ | ⟨-, exits⟩ | ⟨notEnd, continues⟩⟩
        · exact absurd (stepped.symm.trans exits) (by simp)
        · obtain rfl := Sum.inl.inj (continues.symm.trans stepped)
          exact ⟨queue.pop opened (queue.closed _ isClosed).2, trivial⟩
        · exact absurd (stepped.symm.trans exits) (by simp)
        · obtain rfl := Sum.inl.inj (continues.symm.trans stepped)
          have popped := queue.pop opened notEnd
          have once := queue.once
          rw [opened] at once
          refine ⟨⟨popped.opened, ?_, popped.once, ?_, popped.ending⟩, notEnd⟩
          · intro p member
            rcases List.mem_cons.mp member with rfl | old
            · exact ⟨queue.opened st (opened ▸ List.mem_cons_self), notEnd⟩
            · exact queue.closed p old
          · intro other member isClosed
            rcases List.mem_cons.mp isClosed with same | old
            · exact same.trans ((List.pairwise_cons.mp once).1 other member same.symm)
            · exact popped.fresh other member old
      · obtain ⟨next, ticks⟩ := ticks_of_turns searches.endFree reaches.sound.turns popping
        obtain rfl := Sum.inl.inj (ticks.1.symm.trans stepped)
        exact ⟨(goes_tick popping avoids ticks.1).queue queue, ticks.2.2.avoids avoids⟩

end Runs

/-- The loop of `find` pops the end and leaves with the predecessors. -/
def PopsEnd (q : Query) : Prop :=
  ∃ config links, Reaches q config ∧ tick q config = .inr (some links)

/-- At some time of the search the position is on the open list, to be expanded in the
direction. -/
def Queued (q : Query) (p d : Pos) : Prop :=
  ∃ config, Reaches q config ∧ ∃ st ∈ config.search.openlist, st.pos = p ∧ d ∈ dirs st

/-- The phase is about to look from the position in the direction. -/
def Phase.Tries (p d : Pos) : Phase → Prop
  | .directions st (turn :: _) => st.pos = p ∧ turn = d
  | .diagonal _ turn s _ => s.pos = p ∧ turn = d
  | .horizontal _ turn s _ => s.pos = p ∧ ⟨turn.x, 0⟩ = d
  | .vertical _ turn s _ _ => s.pos = p ∧ ⟨0, turn.y⟩ = d
  | _ => False

/-- At some time the search looks from the position in the direction. -/
def Tried (q : Query) (p d : Pos) : Prop :=
  ∃ config, Reaches q config ∧ config.phase.Tries p d

/-- The popped state a phase is busy with, and the directions left for it. -/
def Phase.rest : Phase → Option (State × List Pos)
  | .pop => none
  | .directions st dirs | .diagonal st _ _ dirs | .horizontal st _ _ dirs
  | .vertical st _ _ _ dirs => some (st, dirs)

section Failures

variable {q : Query} {config after : Config}

theorem Reaches.returns_none (fails : ¬ PopsEnd q) (reaches : Reaches q config) :
    Returns (tick q) config none := by
  obtain ⟨found, returns⟩ := search_returns reaches.1.endFree
  cases found with
  | none => exact returns.of_reaches reaches.2
  | some links =>
      obtain ⟨last, reachesLast, exits⟩ := exists_exit reaches.1 returns
      exact absurd ⟨last, links, reachesLast, exits⟩ fails

theorem openlist_pop {search : Search} {st : State} {openlist : List State}
    (opened : search.openlist = st :: openlist)
    (stepped : tick q ⟨search, .pop⟩ = .inl after) : after.search.openlist = openlist := by
  rcases tick_pop q search with ⟨empty, -⟩ | ⟨head, tail, isHead,
    ⟨-, continues⟩ | ⟨-, exits⟩ | ⟨-, continues⟩⟩
  · exact absurd (opened.symm.trans empty) (by simp)
  · obtain rfl := Sum.inl.inj (continues.symm.trans stepped)
    exact (List.cons.inj (isHead.symm.trans opened)).2
  · exact absurd (stepped.symm.trans exits) (by simp)
  · obtain rfl := Sum.inl.inj (continues.symm.trans stepped)
    exact (List.cons.inj (isHead.symm.trans opened)).2

theorem Reaches.openlist_of_exit (reaches : Reaches q config)
    (exits : tick q config = .inr none) :
    config.phase = .pop ∧ config.search.openlist = [] := by
  by_cases popping : config.phase = .pop
  · refine ⟨popping, ?_⟩
    obtain ⟨search, phase⟩ := config
    simp only at popping
    subst popping
    rcases tick_pop q search with ⟨empty, -⟩ | ⟨head, tail, -,
      ⟨-, continues⟩ | ⟨-, leaves⟩ | ⟨-, continues⟩⟩
    · exact empty
    · exact absurd (continues.symm.trans exits) (by simp)
    · exact absurd (leaves.symm.trans exits) (by simp)
    · exact absurd (continues.symm.trans exits) (by simp)
  · obtain ⟨after, ticks, -⟩ := reaches.ticks popping
    exact absurd (ticks.1.symm.trans exits) (by simp)

theorem Reaches.pops (fails : ¬ PopsEnd q) (reaches : Reaches q config) {st : State}
    (isOpen : st ∈ config.search.openlist) :
    ∃ search openlist, Reaches q ⟨search, .pop⟩ ∧ search.openlist = st :: openlist := by
  by_contra never
  obtain ⟨fuel, returned⟩ := reaches.returns_none fails
  obtain ⟨last, ⟨reachesLast, staysOpen⟩, -, exits⟩ := exit_of_invariant
    (fun config => Reaches q config ∧ st ∈ config.search.openlist)
    (fun config after ⟨reaches, isOpen⟩ stepped => by
      refine ⟨reaches.next stepped, ?_⟩
      by_cases popping : config.phase = .pop
      · obtain ⟨search, phase⟩ := config
        simp only at popping isOpen
        subst popping
        obtain ⟨head, openlist, opened⟩ := List.exists_cons_of_ne_nil (List.ne_nil_of_mem isOpen)
        rw [openlist_pop opened stepped]
        rw [opened] at isOpen
        rcases List.mem_cons.mp isOpen with rfl | later
        · exact absurd ⟨search, openlist, reaches, opened⟩ never
        · exact later
      · exact (goes_tick popping reaches.queue.2 stepped).keeps st isOpen)
    ⟨reaches, isOpen⟩ returned
  rw [(reachesLast.openlist_of_exit exits).2] at staysOpen
  simp at staysOpen

/-- A search that never pops the end never links it. -/
theorem Reaches.end_unlinked (fails : ¬ PopsEnd q) (reaches : Reaches q config) :
    config.search.pre q.end_ = none := by
  by_contra linked
  obtain ⟨st, isOpen, atEnd⟩ := reaches.queue.1.ending linked
  obtain ⟨search, openlist, popping, opened⟩ := reaches.pops fails isOpen
  rcases tick_pop q search with ⟨empty, -⟩ | ⟨head, tail, isHead,
    ⟨isClosed, -⟩ | ⟨-, exits⟩ | ⟨notEnd, -⟩⟩
  · exact absurd (opened.symm.trans empty) (by simp)
  · obtain ⟨rfl, -⟩ := List.cons.inj (isHead.symm.trans opened)
    exact (popping.queue.1.closed _ isClosed).2 atEnd
  · exact fails ⟨_, _, popping, exits⟩
  · obtain ⟨rfl, -⟩ := List.cons.inj (isHead.symm.trans opened)
    exact notEnd atEnd

/-- The directions left for a popped state shrink by the one that is tried. -/
theorem Follows.rest (follows : Follows q config after) {st : State} {left : List Pos}
    {d : Pos} (isRest : config.phase.rest = some (st, left)) (member : d ∈ left) :
    config.phase.Tries st.pos d ∨
      ∃ later, after.phase.rest = some (st, later) ∧ d ∈ later := by
  obtain ⟨search, phase⟩ := config
  cases phase with
  | pop => exact follows.elim
  | directions origin dirs =>
      obtain ⟨rfl, rfl⟩ := Prod.mk.inj (Option.some.inj isRest)
      cases dirs with
      | nil => simp at member
      | cons turn dirs =>
          rcases List.mem_cons.mp member with rfl | later
          · exact Or.inl ⟨rfl, rfl⟩
          · simp only [Follows] at follows
            split at follows
            · exact Or.inr ⟨dirs, by rw [follows]; rfl, later⟩
            · exact Or.inr ⟨dirs, by rw [follows]; rfl, later⟩
  | diagonal origin turn s dirs =>
      obtain ⟨rfl, rfl⟩ := Prod.mk.inj (Option.some.inj isRest)
      rcases follows with next | ⟨next, -⟩
      · exact Or.inr ⟨dirs, by rw [next]; rfl, member⟩
      · exact Or.inr ⟨dirs, by rw [next]; rfl, member⟩
  | horizontal origin turn s dirs =>
      obtain ⟨rfl, rfl⟩ := Prod.mk.inj (Option.some.inj isRest)
      have next : after.phase = _ := follows
      exact Or.inr ⟨dirs, by rw [next]; rfl, member⟩
  | vertical origin turn s r1 dirs =>
      obtain ⟨rfl, rfl⟩ := Prod.mk.inj (Option.some.inj isRest)
      rcases follows with ⟨-, next⟩ | ⟨-, next⟩
      · exact Or.inr ⟨dirs, by rw [next]; rfl, member⟩
      · exact Or.inr ⟨dirs, by rw [next]; rfl, member⟩

/-- All directions that are left for a popped state are tried. -/
theorem Reaches.tried (fails : ¬ PopsEnd q) (reaches : Reaches q config) {st : State}
    {left : List Pos} {d : Pos} (isRest : config.phase.rest = some (st, left))
    (member : d ∈ left) : Tried q st.pos d := by
  by_contra never
  obtain ⟨fuel, returned⟩ := reaches.returns_none fails
  obtain ⟨last, ⟨reachesLast, later, isLater, -⟩, -, exits⟩ := exit_of_invariant
    (fun config => Reaches q config ∧
      ∃ left, config.phase.rest = some (st, left) ∧ d ∈ left)
    (fun config after ⟨reaches, left, isRest, member⟩ stepped => by
      have notPop : config.phase ≠ .pop := by
        intro popping
        simp [popping, Phase.rest] at isRest
      obtain ⟨next, ticks, reachesNext⟩ := reaches.ticks notPop
      obtain rfl := Sum.inl.inj (ticks.1.symm.trans stepped)
      rcases ticks.2.2.rest isRest member with tries | remains
      · exact absurd ⟨config, reaches, tries⟩ never
      · exact ⟨reachesNext, remains⟩)
    ⟨reaches, left, isRest, member⟩ returned
  rw [(reachesLast.openlist_of_exit exits).1] at isLater
  simp [Phase.rest] at isLater

/-- From the start all directions are tried. -/
theorem tried_start (fails : ¬ PopsEnd q) (searches : Searches q) {d : Pos}
    (direction : IsDirection d) : Tried q q.start_ d := by
  let st : State := ⟨q.start_.x, q.start_.y, 0, cost q.start_ q.end_, 0, 0⟩
  have first : Reaches q (initial q) := ⟨searches, .refl⟩
  have all : d ∈ dirs st := by
    have nonzero : d ≠ ⟨0, 0⟩ := by
      rintro rfl
      simpa using direction.nonzero
    exact mem_directions.mpr ⟨direction.isStep, nonzero⟩
  rcases tick_pop q (initial q).search with ⟨empty, -⟩ | ⟨head, tail, isHead,
    ⟨isClosed, -⟩ | ⟨atEnd, -⟩ | ⟨-, continues⟩⟩
  · simp [initial] at empty
  · simp [initial] at isClosed
  · obtain ⟨rfl, -⟩ := List.cons.inj isHead
    exact absurd atEnd searches.different
  · obtain ⟨rfl, -⟩ := List.cons.inj isHead
    exact (first.next continues).tried fails rfl all

/-- What is queued is tried. -/
theorem Queued.tried (fails : ¬ PopsEnd q) {p d : Pos} (queued : Queued q p d) :
    Tried q p d := by
  obtain ⟨config, reaches, st, isOpen, rfl, member⟩ := queued
  obtain ⟨search, openlist, popping, opened⟩ := reaches.pops fails isOpen
  have notEmpty : search.openlist ≠ [] := by simp [opened]
  rcases tick_pop q search with ⟨empty, -⟩ | ⟨head, tail, isHead,
    ⟨isClosed, -⟩ | ⟨-, exits⟩ | ⟨-, continues⟩⟩
  · exact absurd empty notEmpty
  · obtain ⟨rfl, -⟩ := List.cons.inj (isHead.symm.trans opened)
    have isOpen : head ∈ search.openlist := opened ▸ List.mem_cons_self
    rw [popping.queue.1.fresh head isOpen isClosed]
    exact tried_start fails popping.1
      (isDirection_of_mem_dirs (popping.sound.opened head isOpen).1 member)
  · exact absurd ⟨_, _, popping, exits⟩ fails
  · obtain ⟨rfl, -⟩ := List.cons.inj (isHead.symm.trans opened)
    exact (popping.next continues).tried fails rfl member

end Failures

end Jps

end LuaServer
