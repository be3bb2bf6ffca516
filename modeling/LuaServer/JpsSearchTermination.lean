import LuaServer.JpsSearchLinks

/-!
# The open-list loop of the jump point search ends

Opening a state takes an unlinked position, popping one takes an open state,
and both are finite.  Between two pops there are at most eight directions, and
a diagonal walk takes one cell of the map after the other.  This holds on every
map, whatever the links look like.
-/

namespace LuaServer

namespace Jps

open GridCell MachineIntegers PredecessorLinks FueledLoops

/-- How many cells the diagonal walk may still take. -/
def walkWork (g : Grid) (d : Pos) (s : State) : Nat :=
  if g.inarea s.pos then (if d.x = 1 then g.len - s.x else s.x + 1).toNat
  else 32768

/-- How many small steps there may be before the next pop. -/
def phaseWork (g : Grid) : Phase → Nat
  | .pop => 0
  | .directions _ dirs => 100000 * dirs.length + 1
  | .diagonal _ d s dirs => 100000 * dirs.length + 3 * walkWork g d s + 2
  | .horizontal _ d s dirs => 100000 * dirs.length + 3 * walkWork g d s + 4
  | .vertical _ d s _ dirs => 100000 * dirs.length + 3 * walkWork g d s + 3

def potential (q : Query) (config : Config) : Nat :=
  800002 * credit config.search + phaseWork q.grid config.phase

section Decrease

variable {q : Query} {config after : Config} {d : Pos} {s : State}

theorem walkWork_le (g : Grid) (d : Pos) (s : State) : walkWork g d s ≤ 32768 := by
  have lenBound := g.lenRange
  simp only [walkWork]
  split
  next inside =>
    have bounds := (inarea_iff g s.pos).mp inside
    simp only [State.pos] at bounds
    split <;> omega
  next => exact le_rfl

/-- A walk that moves on inside the map has less left. -/
theorem walkWork_moved_lt {g : Grid} (walks : Walks d s)
    (free : g.Free (s.moved d).pos) :
    walkWork g d ((s.moved d).paid HWEI) < walkWork g d s := by
  have lenBound := g.lenRange
  have nextInside : g.inarea ((s.moved d).paid HWEI).pos = true := free.inarea
  have nextBounds := (inarea_iff g _).mp nextInside
  have step := walks.direction.isStep
  have sideways := walks.sideways
  simp only [IsStep] at step
  simp only [State.pos, State.moved, State.paid] at nextBounds
  unfold walkWork
  rw [if_pos nextInside]
  simp only [State.moved, State.paid]
  by_cases inside : g.inarea s.pos = true
  · have bounds := (inarea_iff g s.pos).mp inside
    simp only [State.pos] at bounds
    have exact' : toInt16 (s.x + d.x) = s.x + d.x :=
      toInt16_of_range (by omega) (by omega)
    rw [if_pos inside]
    rw [exact'] at nextBounds ⊢
    split <;> omega
  · rw [if_neg inside]
    split <;> omega

theorem length_dirs_le (st : State) : (dirs st).length ≤ 8 := by
  simp only [dirs]
  split
  · simp
  · split <;> simp

theorem phaseWork_follows (follows : Follows q config after)
    (turns : config.phase.Turns) :
    phaseWork q.grid after.phase < phaseWork q.grid config.phase := by
  obtain ⟨search, phase⟩ := config
  cases phase with
  | pop => exact follows.elim
  | directions st dirs =>
      cases dirs with
      | nil =>
          have next : after.phase = .pop := follows
          simp [next, phaseWork]
      | cons d dirs =>
          simp only [Follows] at follows
          split at follows
          · simp only [follows, phaseWork, List.length_cons]
            omega
          · have bounded := walkWork_le q.grid d { st with dx := d.x, dy := d.y }
            simp only [follows, phaseWork, List.length_cons]
            omega
  | diagonal st d s dirs =>
      rcases follows with next | ⟨next, -, -, free, -⟩
      · simp only [next, phaseWork]
        omega
      · have less := walkWork_moved_lt turns.1 free
        simp only [next, phaseWork]
        omega
  | horizontal st d s dirs =>
      have next : after.phase = _ := follows
      simp only [next, phaseWork]
      omega
  | vertical st d s r1 dirs =>
      rcases follows with ⟨-, next⟩ | ⟨-, next⟩ <;> simp only [next, phaseWork] <;> omega

/-- Every small step lowers the potential. -/
theorem potential_tick (endFree : q.grid.Free q.end_) (sound : Sound q config)
    (stepped : tick q config = .inl after) : potential q after < potential q config := by
  obtain ⟨search, phase⟩ := config
  by_cases popping : phase = .pop
  · subst phase
    have fewer : ∀ st openlist, search.openlist = st :: openlist →
        credit search = credit { search with openlist } + 1 := by
      intro st openlist opened
      simp only [credit, opened, List.length_cons]
      omega
    rcases tick_pop q search with ⟨-, exits⟩ | ⟨st, openlist, opened,
      ⟨-, continues⟩ | ⟨-, exits⟩ | ⟨-, continues⟩⟩
    · simp [exits] at stepped
    · obtain rfl := Sum.inl.inj (continues.symm.trans stepped)
      have spent := fewer st openlist opened
      simp only [potential, phaseWork]
      omega
    · simp [exits] at stepped
    · obtain rfl := Sum.inl.inj (continues.symm.trans stepped)
      have spent := fewer st openlist opened
      have few := length_dirs_le st
      have same : credit { search with
          openlist, closelist := st.pos :: search.closelist } =
            credit { search with openlist } := rfl
      simp only [potential, phaseWork, same]
      omega
  · obtain ⟨next, ticked, offered, follows⟩ := ticks_of_turns endFree sound.turns popping
    obtain rfl := Sum.inl.inj (ticked.symm.trans stepped)
    have noMore := offered.credit
    have less := phaseWork_follows follows sound.turns
    simp only at noMore less
    simp only [potential]
    omega

/-- The open-list loop, with the diagonal walks inside it, ends on every map. -/
theorem search_returns (endFree : q.grid.Free q.end_) :
    ∃ found, Returns (tick q) (initial q) found :=
  exists_returns_of_measure (Sound q) (potential q)
    (fun _ _ sound stepped =>
      ⟨sound.tick endFree stepped, potential_tick endFree sound stepped⟩)
    (sound_initial q)

end Decrease

end Jps

end LuaServer
