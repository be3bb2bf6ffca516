import LuaServer.JpsGrid
import Mathlib.Data.List.Range

/-!
# Exactness of the jump cache

`linecache` walks one line of the map from an edge and restarts itself at
every obstacle and forced neighbour.  What it leaves in the cache is, for
every cell of the rest of the line, the distance to the next forced neighbour
or to the last free cell.  `jpcache` does this for every line in both
directions, so every cell of the map gets its jump length in the four
straight directions.
-/

namespace LuaServer

namespace Jps

open GridCell MachineIntegers FueledLoops

/-- One of the four straight directions. -/
def IsStraight (d : Pos) : Prop :=
  d = ⟨0, 1⟩ ∨ d = ⟨0, -1⟩ ∨ d = ⟨-1, 0⟩ ∨ d = ⟨1, 0⟩

/-- `v` is the jump length from `p` in direction `d`: zero on an obstacle,
otherwise the number of free cells ahead up to the first forced neighbour. -/
structure JumpLength (g : Grid) (p d : Pos) (v : Int) : Prop where
  blocked : ¬ g.Free p → v = 0
  nonneg : 0 ≤ v
  clear : ∀ i : Int, 1 ≤ i → i ≤ v → g.Free (p.advance d i)
  unforced : ∀ i : Int, 1 ≤ i → i < v → g.fneig (p.advance d i) d = []
  stops : g.Free p → ¬ g.Free (p.advance d (v + 1)) ∨
    (1 ≤ v ∧ g.fneig (p.advance d v) d ≠ [])

theorem inarea_iff (g : Grid) (p : Pos) : g.inarea p = true ↔
    0 ≤ p.x ∧ p.x ≤ g.len - 1 ∧ 0 ≤ p.y ∧ p.y ≤ g.wid - 1 := by
  simp only [Grid.inarea, ge_iff_le, Bool.and_eq_true, decide_eq_true_eq, and_assoc]

theorem Grid.Free.inarea {g : Grid} {p : Pos} (free : g.Free p) :
    g.inarea p = true := by
  simp only [Grid.Free, Grid.obstacle] at free
  split at free <;> simp_all

theorem inMapRange_of_inarea {g : Grid} {p : Pos} (inside : g.inarea p = true) :
    InMapRange p := by
  have bounds := (inarea_iff g p).mp inside
  have lenBound := g.lenRange
  have widBound := g.widRange
  simp only [InMapRange]
  omega

theorem not_free_iff {g : Grid} {p : Pos} : ¬ g.Free p ↔ g.obstacle p = true := by
  simp [Grid.Free]

/-- A step from a cell of the map is exact. -/
theorem shift_eq {g : Grid} {p d : Pos} (inside : g.inarea p = true)
    (step : d.IsStep) : shift p d = p.advance d 1 := by
  have range := inMapRange_of_inarea inside
  simp only [InMapRange] at range
  simp only [IsStep] at step
  simp only [shift, advance, mul_one]
  rw [toInt16_of_range (by omega) (by omega),
    toInt16_of_range (by omega) (by omega)]

theorem IsStraight.isStep {d : Pos} (straight : IsStraight d) : d.IsStep := by
  rcases straight with rfl | rfl | rfl | rfl <;> decide

section Entries

variable {cache later : Cache} {p q d other : Pos} {v : Int}

theorem getcache_setcache_self (straight : IsStraight d) :
    getcache (setcache cache p d v) p d = v := by
  rcases straight with rfl | rfl | rfl | rfl <;> simp [getcache, setcache]

theorem getcache_setcache_of_ne (different : q ≠ p ∨ other ≠ d) :
    getcache (setcache cache p d v) q other = getcache cache q other := by
  by_cases same : q = p
  · subst q
    have turned : other ≠ d := by simpa using different
    simp only [getcache, setcache, if_true]
    grind
  · simp [getcache, setcache, same]

/-- `later` differs from `cache` at most in direction `d` on `touched`. -/
def ChangesOnly (d : Pos) (touched : Pos → Prop) (cache later : Cache) : Prop :=
  ∀ q other, (other = d → ¬ touched q) →
    getcache later q other = getcache cache q other

theorem ChangesOnly.refl (d : Pos) (touched : Pos → Prop) (cache : Cache) :
    ChangesOnly d touched cache cache :=
  fun _ _ _ => rfl

theorem ChangesOnly.trans {touched more all : Pos → Prop} {last : Cache}
    (first : ChangesOnly d touched cache later)
    (second : ChangesOnly d more later last)
    (firstIn : ∀ q, touched q → all q) (secondIn : ∀ q, more q → all q) :
    ChangesOnly d all cache last := by
  intro q other outside
  rw [second q other fun same inMore => outside same (secondIn q inMore),
    first q other fun same inTouched => outside same (firstIn q inTouched)]

theorem changesOnly_setcache :
    ChangesOnly d (fun q => q = p) cache (setcache cache p d v) := by
  intro q other outside
  apply getcache_setcache_of_ne
  by_cases same : other = d
  · exact Or.inl (outside same)
  · exact Or.inr same

end Entries

/-- The `j`-th cell behind `entry` in direction `d`. -/
def cell (entry d : Pos) (j : Nat) : Pos :=
  entry.advance d j

theorem cell_advance (entry d : Pos) (i j : Nat) :
    (cell entry d i).advance d j = cell entry d (i + j) := by
  rw [cell, cell, advance_advance]
  push_cast
  rfl

/-- The cells `entry`, `entry + d`, ... up to the edge of the map. -/
structure Line (g : Grid) (entry d : Pos) (count : Nat) : Prop where
  straight : IsStraight d
  inside : ∀ j, j < count → g.inarea (cell entry d j) = true
  beyond : g.inarea (cell entry d count) = false

namespace Line

variable {g : Grid} {entry d : Pos} {count : Nat}

/-- The cells of a line from index `first` to before index `last`. -/
def Between (entry d : Pos) (first last : Nat) (q : Pos) : Prop :=
  ∃ j, first ≤ j ∧ j < last ∧ q = cell entry d j

theorem cell_injective (straight : IsStraight d) {i j : Nat}
    (same : cell entry d i = cell entry d j) : i = j := by
  simp only [cell, advance, GridCell.mk.injEq] at same
  rcases straight with rfl | rfl | rfl | rfl <;> simp at same <;> exact same

theorem shift_cell (line : Line g entry d count) {j : Nat} (inside : j < count) :
    shift (cell entry d j) d = cell entry d (j + 1) := by
  rw [shift_eq (line.inside j inside) line.straight.isStep]
  exact cell_advance entry d j 1

theorem not_free_beyond (line : Line g entry d count) :
    ¬ g.Free (cell entry d count) := by
  intro free
  have inside := free.inarea
  rw [line.beyond] at inside
  simp at inside

/-- The run length never leaves the range of its 16-bit counter. -/
theorem count_le (line : Line g entry d count) : count ≤ 32767 := by
  by_contra tooLong
  have first := inMapRange_of_inarea (line.inside 0 (by omega))
  have last := inMapRange_of_inarea (line.inside 32767 (by omega))
  simp only [InMapRange, cell, advance_x, advance_y] at first last
  rcases line.straight with rfl | rfl | rfl | rfl <;>
    simp only at first last <;> omega

/-- The first loop marks the obstacles up to the next free cell. -/
theorem skip_spec (line : Line g entry d count) {first : Nat}
    (firstLe : first ≤ count) {fuel : Nat} (enough : count - first < fuel)
    (cache : Cache) :
    ∃ stop later, first ≤ stop ∧ stop ≤ count ∧
      loop (skipBody g d) fuel (cell entry d first, cache) =
        some (cell entry d stop, later) ∧
      (stop < count → g.Free (cell entry d stop)) ∧
      (∀ j, first ≤ j → j < stop → ¬ g.Free (cell entry d j) ∧
        getcache later (cell entry d j) d = 0) ∧
      ChangesOnly d (Between entry d first stop) cache later := by
  induction fuel generalizing first cache with
  | zero => omega
  | succ fuel ih =>
      by_cases atEnd : first = count
      · subst first
        refine ⟨count, cache, le_rfl, le_rfl, loop_exit ?_, by omega,
          by omega, ChangesOnly.refl _ _ _⟩
        simp [skipBody, line.beyond]
      have inside := line.inside first (by omega)
      by_cases free : g.Free (cell entry d first)
      · refine ⟨first, cache, le_rfl, firstLe, loop_exit ?_, fun _ => free,
          by omega, ChangesOnly.refl _ _ _⟩
        have notObstacle : g.obstacle (cell entry d first) = false := free
        simp [skipBody, notObstacle]
      · have obstacle := not_free_iff.mp free
        have continues : skipBody g d (cell entry d first, cache) =
            .inl (cell entry d (first + 1),
              setcache cache (cell entry d first) d 0) := by
          have moves := line.shift_cell (by omega : first < count)
          simp [skipBody, inside, obstacle, moves]
        obtain ⟨stop, later, firstLt, stopLe, returned, stopFree, marked, changes⟩ :=
          ih (by omega : first + 1 ≤ count) (by omega)
            (setcache cache (cell entry d first) d 0)
        refine ⟨stop, later, by omega, stopLe, (loop_continue continues).trans returned,
          stopFree, ?_, ?_⟩
        · intro j firstLe jLt
          by_cases isFirst : j = first
          · subst j
            refine ⟨free, ?_⟩
            rw [changes _ d, getcache_setcache_self line.straight]
            rintro - ⟨i, firstLt, -, same⟩
            have equal := cell_injective line.straight same
            omega
          · exact marked j (by omega) jLt
        · refine (changesOnly_setcache.trans changes ?_ ?_)
          · rintro q rfl
            exact ⟨first, le_rfl, by omega, rfl⟩
          · rintro q ⟨j, firstLt, jLt, rfl⟩
            exact ⟨j, by omega, jLt, rfl⟩

/-- The condition under which the second loop stops. -/
theorem runBody_stop {t : Pos} {walked : Nat}
    (stops : ¬ g.Free t ∨ (walked ≠ 0 ∧ g.fneig t d ≠ [])) :
    runBody g d (t, walked) = .inr (t, walked) := by
  have stopped : g.obstacle t = true ∨
      (g.fneig t d).isEmpty = false ∧ walked ≠ 0 := by
    rcases stops with blocked | ⟨moved, forced⟩
    · exact Or.inl (not_free_iff.mp blocked)
    · exact Or.inr ⟨by simpa using forced, moved⟩
  simp only [runBody]
  rw [if_pos]
  simpa using stopped

theorem runBody_continue {t : Pos} {walked : Nat} (bound : walked < 32767)
    (free : g.Free t) (continues : walked = 0 ∨ g.fneig t d = []) :
    runBody g d (t, walked) = .inl (shift t d, (walked + 1 : Nat)) := by
  have notObstacle : g.obstacle t = false := free
  have counted : toInt16 (walked + 1) = (walked + 1 : Nat) :=
    toInt16_of_range (by omega) (by omega)
  simp only [runBody, counted, notObstacle]
  rw [if_neg]
  rcases continues with rfl | unforced
  · simp
  · simp [unforced]

/-- The second loop walks free cells up to an obstacle or a forced
neighbour, and at least one cell. -/
theorem run_spec (line : Line g entry d count) {first : Nat} (walked : Nat)
    (walkedLe : first + walked ≤ count) {fuel : Nat}
    (enough : count - (first + walked) < fuel)
    (startFree : g.Free (cell entry d first))
    (clear : ∀ j, j < walked → g.Free (cell entry d (first + j)))
    (unforced : ∀ j, 1 ≤ j → j < walked →
      g.fneig (cell entry d (first + j)) d = []) :
    ∃ stop : Nat, 1 ≤ stop ∧ first + stop ≤ count ∧
      loop (runBody g d) fuel (cell entry d (first + walked), (walked : Int)) =
        some (cell entry d (first + stop), (stop : Int)) ∧
      (∀ j, j < stop → g.Free (cell entry d (first + j))) ∧
      (∀ j, 1 ≤ j → j < stop → g.fneig (cell entry d (first + j)) d = []) ∧
      (¬ g.Free (cell entry d (first + stop)) ∨
        g.fneig (cell entry d (first + stop)) d ≠ []) := by
  induction fuel generalizing walked with
  | zero => omega
  | succ fuel ih =>
      by_cases stops : ¬ g.Free (cell entry d (first + walked)) ∨
          (walked ≠ 0 ∧ g.fneig (cell entry d (first + walked)) d ≠ [])
      · have moved : walked ≠ 0 := by
          rcases stops with blocked | ⟨moved, -⟩
          · rintro rfl
            exact blocked startFree
          · exact moved
        exact ⟨walked, by omega, walkedLe, loop_exit (runBody_stop stops), clear,
          unforced, stops.imp id And.right⟩
      push Not at stops
      obtain ⟨free, notForced⟩ := stops
      have insideLine : first + walked < count := by
        by_contra outside
        have atEnd : first + walked = count := by omega
        rw [atEnd] at free
        exact line.not_free_beyond free
      have bound := line.count_le
      have continues : runBody g d (cell entry d (first + walked), (walked : Int)) =
          .inl (cell entry d (first + (walked + 1)), ((walked + 1 : Nat) : Int)) := by
        rw [runBody_continue (by omega) free (by tauto), line.shift_cell insideLine,
          Nat.add_assoc]
      have clearNext : ∀ j, j < walked + 1 → g.Free (cell entry d (first + j)) := by
        intro j jLt
        by_cases isLast : j = walked
        · exact isLast ▸ free
        · exact clear j (by omega)
      have unforcedNext : ∀ j, 1 ≤ j → j < walked + 1 →
          g.fneig (cell entry d (first + j)) d = [] := by
        intro j jPos jLt
        by_cases isLast : j = walked
        · subst j
          exact notForced (by omega)
        · exact unforced j jPos (by omega)
      obtain ⟨stop, moved, stopLe, returned, rest⟩ :=
        ih (walked + 1) (by omega) (by omega) clearNext unforcedNext
      exact ⟨stop, moved, stopLe, (loop_continue continues).trans returned, rest⟩

/-- The third loop gives every cell of a run its distance to the end. -/
theorem fillRun_spec (line : Line g entry d count) {first walked : Nat}
    (inside : first + walked < count) (cache : Cache) :
    (∀ j, j ≤ walked →
      getcache (fillRun d (cell entry d first) walked cache)
        (cell entry d (first + j)) d = (walked - j : Int)) ∧
    ChangesOnly d (Between entry d first (first + walked + 1)) cache
      (fillRun d (cell entry d first) walked cache) := by
  have bound := line.count_le
  have fills : ∀ (later : Cache) (j : Nat), j ≤ walked →
      fillCell d (cell entry d first) walked later j =
        setcache later (cell entry d (first + j)) d (walked - j) := by
    intro later j jLe
    have range := inMapRange_of_inarea (line.inside (first + j) (by omega))
    rw [← cell_advance] at range ⊢
    simp only [InMapRange, advance_x, advance_y] at range
    simp only [fillCell, advance]
    rw [toInt16_of_range (by omega) (by omega), toInt16_of_range (by omega) (by omega),
      toInt16_of_range (by omega) (by omega)]
  -- Induction on how many cells of the run are filled.
  have filled : ∀ steps : Nat, steps ≤ walked + 1 →
      (∀ j, j < steps →
        getcache ((List.range steps).foldl (fillCell d (cell entry d first) walked) cache)
          (cell entry d (first + j)) d = (walked - j : Int)) ∧
      ChangesOnly d (Between entry d first (first + steps)) cache
        ((List.range steps).foldl (fillCell d (cell entry d first) walked) cache) := by
    intro steps stepsLe
    induction steps with
    | zero => exact ⟨by omega, ChangesOnly.refl _ _ _⟩
    | succ steps ih =>
        obtain ⟨values, changes⟩ := ih (by omega)
        rw [List.range_succ, List.foldl_append, List.foldl_cons, List.foldl_nil,
          fills _ steps (by omega)]
        constructor
        · intro j jLt
          by_cases isLast : j = steps
          · subst j
            exact getcache_setcache_self line.straight
          · rw [getcache_setcache_of_ne, values j (by omega)]
            left
            intro same
            have equal := cell_injective line.straight same
            omega
        · apply changes.trans changesOnly_setcache
          · rintro q ⟨j, firstLe, jLt, rfl⟩
            exact ⟨j, firstLe, by omega, rfl⟩
          · rintro q rfl
            exact ⟨first + steps, by omega, by omega, rfl⟩
  obtain ⟨values, changes⟩ := filled (walked + 1) le_rfl
  have rounds : ((walked : Int) + 1).toNat = walked + 1 := by omega
  simp only [fillRun, rounds]
  exact ⟨fun j jLe => values j (by omega), changes⟩

/-- What `linecache` leaves behind it: exact jump lengths on the rest of the
line, and nothing else changed. -/
def Fills (g : Grid) (entry d : Pos) (first count : Nat)
    (cache later : Cache) : Prop :=
  (∀ j, first ≤ j → j < count →
    JumpLength g (cell entry d j) d (getcache later (cell entry d j) d)) ∧
  ChangesOnly d (Between entry d first count) cache later

/-- A run of free cells whose last one precedes an obstacle or is a forced
neighbour has its distances as jump lengths. -/
theorem jumpLength_of_run {first walked : Nat}
    (clear : ∀ j, j ≤ walked → g.Free (cell entry d (first + j)))
    (unforced : ∀ j, 1 ≤ j → j < walked →
      g.fneig (cell entry d (first + j)) d = [])
    (stops : ¬ g.Free (cell entry d (first + walked + 1)) ∨
      (1 ≤ walked ∧ g.fneig (cell entry d (first + walked)) d ≠ []))
    {j : Nat} (jLe : j ≤ walked)
    (notForcedEnd : j < walked ∨ ¬ g.Free (cell entry d (first + walked + 1))) :
    JumpLength g (cell entry d (first + j)) d (walked - j : Int) := by
  have ahead : ∀ i : Int, 0 ≤ i →
      (cell entry d (first + j)).advance d i = cell entry d (first + j + i.toNat) := by
    intro i nonneg
    have advanced := cell_advance entry d (first + j) i.toNat
    rwa [Int.toNat_of_nonneg nonneg] at advanced
  refine ⟨fun blocked => absurd (clear j jLe) blocked, by omega, ?_, ?_, ?_⟩
  · intro i iPos iLe
    rw [ahead i (by omega), Nat.add_assoc]
    exact clear _ (by omega)
  · intro i iPos iLt
    rw [ahead i (by omega), Nat.add_assoc]
    exact unforced _ (by omega) (by omega)
  · intro _
    rw [ahead _ (by omega), ahead _ (by omega)]
    have last : first + j + ((walked : Int) - j).toNat = first + walked := by omega
    have next : first + j + ((walked : Int) - j + 1).toNat = first + walked + 1 := by omega
    rw [last, next]
    rcases notForcedEnd with before | blocked
    · exact stops.imp id fun forced => ⟨by omega, forced.2⟩
    · exact Or.inl blocked

/-- A run is filled up to its last free cell. -/
theorem walked_spec (line : Line g entry d count) {start stop : Nat} (moved : 1 ≤ stop)
    (stopLe : start + stop ≤ count) (clear : ∀ j, j < stop → g.Free (cell entry d (start + j)))
    (stops : ¬ g.Free (cell entry d (start + stop)) ∨
      g.fneig (cell entry d (start + stop)) d ≠ []) :
    ∃ walked : Nat,
      (if g.obstacle (cell entry d (start + stop)) = true then (stop : Int) - 1
        else stop) = walked ∧
      start + walked < count ∧
      (∀ j, j ≤ walked → g.Free (cell entry d (start + j))) ∧
      (¬ g.Free (cell entry d (start + walked + 1)) ∨
        (1 ≤ walked ∧ g.fneig (cell entry d (start + walked)) d ≠ [])) ∧
      ((walked < stop ∧ ¬ g.Free (cell entry d (start + walked + 1)) ∧
          stop = walked + 1) ∨ walked = stop) := by
  by_cases blocked : g.obstacle (cell entry d (start + stop)) = true
  · have notFree := not_free_iff.mpr blocked
    refine ⟨stop - 1, by simp [blocked]; omega, by omega,
      fun j jLe => clear j (by omega), ?_⟩
    have next : start + (stop - 1) + 1 = start + stop := by omega
    rw [next]
    exact ⟨Or.inl notFree, Or.inl ⟨by omega, notFree, by omega⟩⟩
  · have stopFree : g.Free (cell entry d (start + stop)) := by
      simpa [Grid.Free] using blocked
    have insideLine : start + stop < count := by
      by_contra outside
      have atEnd : start + stop = count := by omega
      rw [atEnd] at stopFree
      exact line.not_free_beyond stopFree
    refine ⟨stop, by simp [blocked], insideLine, ?_,
      Or.inr ⟨moved, stops.resolve_left (not_not.mpr stopFree)⟩, Or.inr rfl⟩
    intro j jLe
    by_cases isLast : j = stop
    · exact isLast ▸ stopFree
    · exact clear j (by omega)

/-- `linecache` fills the rest of its line, whatever it finds there. -/
theorem linecache_spec (line : Line g entry d count) {first : Nat}
    (firstLe : first ≤ count) {fuel : Nat} (enough : count - first + 2 < fuel)
    (cache : Cache) :
    ∃ later, linecache g d fuel (cell entry d first) cache = some later ∧
      Fills g entry d first count cache later := by
  induction fuel generalizing first cache with
  | zero => omega
  | succ fuel ih =>
      obtain ⟨start, marked, startGe, startLe, skipped, startFree, zeros, changesSkip⟩ :=
        line.skip_spec firstLe (by omega : count - first < fuel) cache
      have obstacles : ∀ later, ChangesOnly d (Between entry d start count) marked later →
          ∀ j, first ≤ j → j < start →
            JumpLength g (cell entry d j) d (getcache later (cell entry d j) d) := by
        intro later changes j jGe jLt
        obtain ⟨blocked, zero⟩ := zeros j jGe jLt
        rw [changes _ d, zero]
        · exact ⟨fun _ => rfl, le_rfl, by omega, by omega, fun free => absurd free blocked⟩
        · rintro - ⟨i, iGe, -, same⟩
          have equal := cell_injective line.straight same
          omega
      by_cases atEnd : start = count
      · subst start
        refine ⟨marked, ?_, ?_, changesSkip⟩
        · simp [linecache, skipped, line.beyond]
        · exact obstacles marked (ChangesOnly.refl _ _ _)
      have free := startFree (by omega)
      obtain ⟨stop, moved, stopLe, ran, clear, unforced, stops⟩ :=
        line.run_spec 0 (by omega) (by omega : count - (start + 0) < fuel)
          free (by omega) (by omega)
      obtain ⟨walked, walkedEq, walkedLt, walkedClear, walkedStops, walkedEnd⟩ :=
        line.walked_spec moved stopLe clear stops
      obtain ⟨values, changesFill⟩ := line.fillRun_spec walkedLt marked
      obtain ⟨later, rest, filled, changesRest⟩ :=
        ih (by omega : start + stop ≤ count) (by omega)
          (fillRun d (cell entry d start) walked marked)
      have changesAfter : ChangesOnly d (Between entry d start count) marked later := by
        apply changesFill.trans changesRest
        · rintro q ⟨j, jGe, jLt, rfl⟩
          exact ⟨j, jGe, by omega, rfl⟩
        · rintro q ⟨j, jGe, jLt, rfl⟩
          exact ⟨j, by omega, jLt, rfl⟩
      refine ⟨later, ?_, ?_, ?_⟩
      · simp only [Nat.add_zero, Nat.cast_zero] at ran
        simp only [linecache, skipped, line.inside start (by omega), ran, walkedEq, rest]
        rfl
      · intro j jGe jLt
        by_cases before : j < start
        · exact obstacles later changesAfter j jGe before
        by_cases after : start + stop ≤ j
        · exact filled j after jLt
        obtain ⟨i, rfl⟩ : ∃ i, j = start + i := ⟨j - start, by omega⟩
        have value := values i (by omega)
        rw [changesRest _ d, value]
        · have atEnd : i < walked ∨ ¬ g.Free (cell entry d (start + walked + 1)) := by
            rcases walkedEnd with ⟨-, notFree, -⟩ | same
            · exact Or.inr notFree
            · exact Or.inl (by omega)
          exact jumpLength_of_run walkedClear (fun j jPos jLt => unforced j jPos (by omega))
            walkedStops (by omega) atEnd
        · rintro - ⟨k, kGe, -, same⟩
          have equal := cell_injective line.straight same
          omega
      · apply changesSkip.trans changesAfter
        · rintro q ⟨j, jGe, jLt, rfl⟩
          exact ⟨j, jGe, by omega, rfl⟩
        · rintro q ⟨j, jGe, jLt, rfl⟩
          exact ⟨j, by omega, jLt, rfl⟩

end Line

/-- Every cell of the columns before `i` and the rows before `j` has its exact
jump lengths. -/
structure FilledUpTo (g : Grid) (i j : Nat) (cache : Cache) : Prop where
  vertical : ∀ p d, g.inarea p = true → p.x < i → d = ⟨0, 1⟩ ∨ d = ⟨0, -1⟩ →
    JumpLength g p d (getcache cache p d)
  horizontal : ∀ p d, g.inarea p = true → p.y < j → d = ⟨1, 0⟩ ∨ d = ⟨-1, 0⟩ →
    JumpLength g p d (getcache cache p d)

section Lines

variable {g : Grid}

/-- A line from an edge of the map to the opposite one, with its number across. -/
theorem line_of_edge {d : Pos} (straight : IsStraight d) {k : Nat}
    (inside : k < if d.x = 0 then g.len else g.wid) :
    Line g ⟨if d.x = 0 then k else if d.x = 1 then 0 else g.len - 1,
        if d.y = 0 then k else if d.y = 1 then 0 else g.wid - 1⟩ d
      (if d.x = 0 then g.wid else g.len).toNat := by
  have lenBounds := g.lenRange
  have widBounds := g.widRange
  refine ⟨straight, ?_, ?_⟩
  · intro j jLt
    rw [inarea_iff]
    rcases straight with rfl | rfl | rfl | rfl <;> simp [cell] at inside jLt ⊢ <;> omega
  · rw [Bool.eq_false_iff, ne_eq, inarea_iff]
    rcases straight with rfl | rfl | rfl | rfl <;> simp [cell]

theorem line_up {i : Nat} (inside : i < g.len) : Line g ⟨i, 0⟩ ⟨0, 1⟩ g.wid.toNat :=
  line_of_edge (Or.inl rfl) inside

theorem line_down {i : Nat} (inside : i < g.len) :
    Line g ⟨i, g.wid - 1⟩ ⟨0, -1⟩ g.wid.toNat :=
  line_of_edge (Or.inr (Or.inl rfl)) inside

theorem line_right {j : Nat} (inside : j < g.wid) : Line g ⟨0, j⟩ ⟨1, 0⟩ g.len.toNat :=
  line_of_edge (Or.inr (Or.inr (Or.inr rfl))) inside

theorem line_left {j : Nat} (inside : j < g.wid) :
    Line g ⟨g.len - 1, j⟩ ⟨-1, 0⟩ g.len.toNat :=
  line_of_edge (Or.inr (Or.inr (Or.inl rfl))) inside

/-- Filling a whole line gives its cells their jump lengths and keeps those of
every cell that is not on the line or looks another way. -/
theorem fill_line {entry d : Pos} {count fuel : Nat}
    (line : Line g entry d count) (enough : count + 2 < fuel) (cache : Cache) :
    ∃ later, linecache g d fuel entry cache = some later ∧
      (∀ p other, (other = d ∧ ∃ j, j < count ∧ p = cell entry d j) ∨
          JumpLength g p other (getcache cache p other) →
        JumpLength g p other (getcache later p other)) := by
  obtain ⟨later, returned, filled, changes⟩ :=
    line.linecache_spec (Nat.zero_le _) (by omega) cache
  have atEntry : cell entry d 0 = entry := by simp [cell]
  rw [atEntry] at returned
  refine ⟨later, returned, ?_⟩
  rintro p other exact
  by_cases onLine : other = d ∧ ∃ j, j < count ∧ p = cell entry d j
  · obtain ⟨rfl, j, jLt, rfl⟩ := onLine
    exact filled j (Nat.zero_le _) jLt
  · rw [changes p other]
    · exact exact.resolve_left onLine
    · rintro rfl ⟨j, -, jLt, same⟩
      exact onLine ⟨rfl, j, jLt, same⟩

theorem columnCache_spec {fuel i : Nat} (inside : i < g.len)
    (enough : g.wid.toNat + 2 < fuel) {cache : Cache}
    (filled : FilledUpTo g i 0 cache) :
    ∃ later, columnCache g fuel cache i = some later ∧
      FilledUpTo g (i + 1) 0 later := by
  obtain ⟨middle, returnedUp, up⟩ := fill_line (line_up inside) enough cache
  obtain ⟨later, returnedDown, down⟩ := fill_line (line_down inside) enough middle
  refine ⟨later, by simp [columnCache, returnedUp, returnedDown], ?_, ?_⟩
  · rintro p d inarea before vertical
    have bounds := (inarea_iff g p).mp inarea
    by_cases inColumn : p.x = i
    · rcases vertical with rfl | rfl
      · apply down
        right
        apply up
        left
        refine ⟨rfl, p.y.toNat, by omega, ?_⟩
        ext
        · simp [cell, inColumn]
        · simp only [cell, advance_y]
          omega
      · apply down
        left
        refine ⟨rfl, (g.wid - 1 - p.y).toNat, by omega, ?_⟩
        ext
        · simp [cell, inColumn]
        · simp only [cell, advance_y]
          omega
    · apply down
      right
      apply up
      right
      exact filled.vertical p d inarea (by push_cast at before; omega) vertical
  · intro p d inarea before
    have bounds := (inarea_iff g p).mp inarea
    omega

theorem rowCache_spec {fuel j : Nat} (inside : j < g.wid)
    (enough : g.len.toNat + 2 < fuel) {cache : Cache}
    (filled : FilledUpTo g g.len.toNat j cache) :
    ∃ later, rowCache g fuel cache j = some later ∧
      FilledUpTo g g.len.toNat (j + 1) later := by
  obtain ⟨middle, returnedRight, right⟩ := fill_line (line_right inside) enough cache
  obtain ⟨later, returnedLeft, left⟩ := fill_line (line_left inside) enough middle
  refine ⟨later, by simp [rowCache, returnedRight, returnedLeft], ?_, ?_⟩
  · intro p d inarea before vertical
    exact left p d (Or.inr (right p d (Or.inr (filled.vertical p d inarea before vertical))))
  · rintro p d inarea before horizontal
    have bounds := (inarea_iff g p).mp inarea
    by_cases inRow : p.y = j
    · rcases horizontal with rfl | rfl
      · apply left
        right
        apply right
        left
        refine ⟨rfl, p.x.toNat, by omega, ?_⟩
        ext
        · simp only [cell, advance_x]
          omega
        · simp [cell, inRow]
      · apply left
        left
        refine ⟨rfl, (g.len - 1 - p.x).toNat, by omega, ?_⟩
        ext
        · simp only [cell, advance_x]
          omega
        · simp [cell, inRow]
    · apply left
      right
      apply right
      right
      exact filled.horizontal p d inarea (by push_cast at before; omega) horizontal

/-- Running a fallible step over `0, ..., count - 1` succeeds when every step
keeps an indexed invariant. -/
theorem foldlM_range_spec {State : Type} {step : State → Nat → Option State}
    (invariant : Nat → State → Prop) {count : Nat}
    (keeps : ∀ i state, i < count → invariant i state →
      ∃ next, step state i = some next ∧ invariant (i + 1) next)
    {state : State} (initially : invariant 0 state) :
    ∃ last, (List.range count).foldlM step state = some last ∧
      invariant count last := by
  have prefixes : ∀ steps, steps ≤ count →
      ∃ last, (List.range steps).foldlM step state = some last ∧
        invariant steps last := by
    intro steps stepsLe
    induction steps with
    | zero => exact ⟨state, rfl, initially⟩
    | succ steps ih =>
        obtain ⟨middle, returned, kept⟩ := ih (by omega)
        obtain ⟨last, stepped, keptLast⟩ := keeps steps middle (by omega) kept
        refine ⟨last, ?_, keptLast⟩
        rw [List.range_succ, List.foldlM_append, returned]
        simp [stepped]
  exact prefixes count le_rfl

/-- `jpcache` ends once its fuel exceeds both sides of the map, and its cache
holds the jump length of every cell in every straight direction. -/
theorem jpcache_spec {fuel : Nat} (enoughLen : g.len.toNat + 2 < fuel)
    (enoughWid : g.wid.toNat + 2 < fuel) :
    ∃ cache, jpcache g fuel = some cache ∧
      ∀ p d, g.inarea p = true → IsStraight d →
        JumpLength g p d (getcache cache p d) := by
  have empty : FilledUpTo g 0 0 fun _ => ⟨0, 0, 0, 0⟩ := by
    refine ⟨?_, ?_⟩ <;> intro p d inarea before <;>
      have bounds := (inarea_iff g p).mp inarea <;> omega
  have columnsKeep : ∀ (i : Nat) (cache : Cache), i < g.len.toNat →
      FilledUpTo g i 0 cache →
      ∃ next, columnCache g fuel cache i = some next ∧ FilledUpTo g (i + 1) 0 next :=
    fun i cache iLt filled => columnCache_spec (by omega) enoughWid filled
  have rowsKeep : ∀ (j : Nat) (cache : Cache), j < g.wid.toNat →
      FilledUpTo g g.len.toNat j cache →
      ∃ next, rowCache g fuel cache j = some next ∧
        FilledUpTo g g.len.toNat (j + 1) next :=
    fun j cache jLt filled => rowCache_spec (by omega) enoughLen filled
  obtain ⟨columns, returnedColumns, filledColumns⟩ :=
    foldlM_range_spec (fun i cache => FilledUpTo g i 0 cache) columnsKeep empty
  obtain ⟨cache, returnedRows, filledRows⟩ :=
    foldlM_range_spec (fun j cache => FilledUpTo g g.len.toNat j cache) rowsKeep
      filledColumns
  refine ⟨cache, ?_, ?_⟩
  · rw [jpcache, returnedColumns]
    exact returnedRows
  · intro p d inarea straight
    have bounds := (inarea_iff g p).mp inarea
    rcases straight with rfl | rfl | rfl | rfl
    · exact filledRows.vertical p _ inarea (by omega) (Or.inl rfl)
    · exact filledRows.vertical p _ inarea (by omega) (Or.inr rfl)
    · exact filledRows.horizontal p _ inarea (by omega) (Or.inr rfl)
    · exact filledRows.horizontal p _ inarea (by omega) (Or.inl rfl)

end Lines

theorem linecache_mono {g : Grid} {d p : Pos} {fuel more : Nat}
    (enough : fuel ≤ more) {cache later : Cache}
    (returned : linecache g d fuel p cache = some later) :
    linecache g d more p cache = some later := by
  induction fuel generalizing more p cache with
  | zero => simp [linecache] at returned
  | succ fuel ih =>
      obtain ⟨more, rfl⟩ : ∃ rest, more = rest + 1 := ⟨more - 1, by omega⟩
      simp only [linecache] at returned ⊢
      cases skipped : loop (skipBody g d) fuel (p, cache) with
      | none => simp [skipped] at returned
      | some marked =>
          rw [skipped] at returned
          rw [loop_mono (by omega : fuel ≤ more) skipped]
          simp only at returned ⊢
          split
          next outside => simpa [outside] using returned
          next inside =>
            rw [if_neg inside] at returned
            cases ran : loop (runBody g d) fuel (marked.1, 0) with
            | none => simp [ran] at returned
            | some stop =>
                rw [ran] at returned
                rw [loop_mono (by omega : fuel ≤ more) ran]
                exact ih (by omega) returned

theorem columnCache_mono {g : Grid} {fuel more i : Nat} (enough : fuel ≤ more)
    {cache later : Cache} (returned : columnCache g fuel cache i = some later) :
    columnCache g more cache i = some later := by
  obtain ⟨middle, returnedUp, returnedDown⟩ := Option.bind_eq_some_iff.mp returned
  exact Option.bind_eq_some_iff.mpr
    ⟨middle, linecache_mono enough returnedUp, linecache_mono enough returnedDown⟩

theorem rowCache_mono {g : Grid} {fuel more j : Nat} (enough : fuel ≤ more)
    {cache later : Cache} (returned : rowCache g fuel cache j = some later) :
    rowCache g more cache j = some later := by
  obtain ⟨middle, returnedRight, returnedLeft⟩ := Option.bind_eq_some_iff.mp returned
  exact Option.bind_eq_some_iff.mpr
    ⟨middle, linecache_mono enough returnedRight, linecache_mono enough returnedLeft⟩

theorem foldlM_mono {State : Type} {step later : State → Nat → Option State}
    (agrees : ∀ state i next, step state i = some next → later state i = some next)
    {rounds : List Nat} {state last : State}
    (returned : rounds.foldlM step state = some last) :
    rounds.foldlM later state = some last := by
  induction rounds generalizing state with
  | nil => exact returned
  | cons i rounds ih =>
      rw [List.foldlM_cons] at returned ⊢
      obtain ⟨next, stepped, rest⟩ := Option.bind_eq_some_iff.mp returned
      exact Option.bind_eq_some_iff.mpr ⟨next, agrees state i next stepped, ih rest⟩

theorem jpcache_mono {g : Grid} {fuel more : Nat} (enough : fuel ≤ more)
    {cache : Cache} (returned : jpcache g fuel = some cache) :
    jpcache g more = some cache := by
  obtain ⟨columns, returnedColumns, returnedRows⟩ := Option.bind_eq_some_iff.mp returned
  exact Option.bind_eq_some_iff.mpr
    ⟨columns, foldlM_mono (fun _ _ _ => columnCache_mono enough) returnedColumns,
      foldlM_mono (fun _ _ _ => rowCache_mono enough) returnedRows⟩

/-- An up-to-date cache holds the jump length of every cell of the map. -/
theorem Cached.jumpLength {g : Grid} {cache : Cache} (cached : Cached g cache)
    {p d : Pos} (inside : g.inarea p = true) (straight : IsStraight d) :
    JumpLength g p d (getcache cache p d) := by
  obtain ⟨fuel, returned⟩ := cached
  let enough := g.len.toNat + g.wid.toNat + 3
  obtain ⟨exact', returnedExact, jumps⟩ :=
    jpcache_spec (by omega : g.len.toNat + 2 < enough)
      (by omega : g.wid.toNat + 2 < enough)
  have atMax := jpcache_mono (Nat.le_max_left fuel enough) returned
  have exactAtMax := jpcache_mono (Nat.le_max_right fuel enough) returnedExact
  obtain rfl := Option.some.inj (atMax.symm.trans exactAtMax)
  exact jumps p d inside straight

end Jps

end LuaServer
