import LuaServer.AstarOrder

/-!
# Cheapest paths of the A* search

The path of the search costs as much as the end when it was discovered first.  This need not
be the least cost, but it is when the end lies on a clear line with the start: the search then
follows the line, since each step along it weighs less than all others.
-/

namespace LuaServer

namespace Astar

open GridCell MachineIntegers Relation FirstDiscoveries

section Distance

variable {w : World} {p e : Pos}

theorem cost_eq_sqrt (pFree : w.Free p) (eFree : w.Free e) : cost p e =
    Nat.sqrt (10000 * ((p.x - e.x) * (p.x - e.x) + (p.y - e.y) * (p.y - e.y)).toNat) := by
  have pRange := pFree.inMapRange
  have eRange := eFree.inMapRange
  simp only [InMapRange] at pRange eRange
  rw [cost, toInt16_of_range (by omega) (by omega), toInt16_of_range (by omega) (by omega)]

theorem cost_mul_self_le (pFree : w.Free p) (eFree : w.Free e) : cost p e * cost p e ≤
    10000 * ((p.x - e.x) * (p.x - e.x) + (p.y - e.y) * (p.y - e.y)) := by
  have squares : 0 ≤ (p.x - e.x) * (p.x - e.x) + (p.y - e.y) * (p.y - e.y) :=
    add_nonneg (mul_self_nonneg _) (mul_self_nonneg _)
  have root := Nat.sqrt_le
    (10000 * ((p.x - e.x) * (p.x - e.x) + (p.y - e.y) * (p.y - e.y)).toNat)
  rw [cost_eq_sqrt pFree eFree]
  zify at root
  rwa [Int.toNat_of_nonneg squares] at root

theorem le_cost {known : Int} (pFree : w.Free p) (eFree : w.Free e) (nonneg : 0 ≤ known)
    (within : known * known ≤
      10000 * ((p.x - e.x) * (p.x - e.x) + (p.y - e.y) * (p.y - e.y))) : known ≤ cost p e := by
  obtain ⟨known, rfl⟩ := Int.eq_ofNat_of_zero_le nonneg
  rw [cost_eq_sqrt pFree eFree, Nat.cast_le, Nat.le_sqrt]
  omega

end Distance

section Weights

variable {w : World} {p e d u : Pos} {more : Nat}

/-- A step to a neighbour, with its square and its cost. -/
theorem square_and_cost (step : d.IsStep) (nonzero : d ≠ ⟨0, 0⟩) :
    (d.x * d.x + d.y * d.y = 1 ∧ (directCost d : Int) = 100) ∨
      (d.x * d.x + d.y * d.y = 2 ∧ (directCost d : Int) = 141) := by
  obtain ⟨listed, member, rfl⟩ := exists_direct_of_step step nonzero
  revert listed
  decide

theorem eq_neighbour (step : d.IsStep) (nonzero : d ≠ ⟨0, 0⟩) :
    d = ⟨-1, -1⟩ ∨ d = ⟨-1, 0⟩ ∨ d = ⟨-1, 1⟩ ∨ d = ⟨0, -1⟩ ∨ d = ⟨0, 1⟩ ∨ d = ⟨1, -1⟩ ∨
      d = ⟨1, 0⟩ ∨ d = ⟨1, 1⟩ := by
  obtain ⟨listed, member, rfl⟩ := exists_direct_of_step step nonzero
  revert listed
  decide

theorem aside_of_straight (step : d.IsStep) (nonzero : d ≠ ⟨0, 0⟩) (asideStep : u.IsStep)
    (asideNonzero : u ≠ ⟨0, 0⟩) (different : u ≠ d) (square : d.x * d.x + d.y * d.y = 1) :
    (d.x * u.x + d.y * u.y) * (d.x * u.x + d.y * u.y) ≤ u.x * u.x + u.y * u.y ∧
      100 * (d.x * u.x + d.y * u.y) < directCost u := by
  obtain ⟨listed, member, rfl⟩ := exists_direct_of_step step nonzero
  obtain ⟨aside, asideMember, rfl⟩ := exists_direct_of_step asideStep asideNonzero
  revert aside listed
  decide

theorem aside_of_diagonal (step : d.IsStep) (nonzero : d ≠ ⟨0, 0⟩) (asideStep : u.IsStep)
    (asideNonzero : u ≠ ⟨0, 0⟩) (different : u ≠ d) (square : d.x * d.x + d.y * d.y = 2) :
    d.x * u.x + d.y * u.y ≤ 1 ∧ 1 ≤ u.x * u.x + u.y * u.y ∧
      100 ≤ (directCost u : Int) := by
  obtain ⟨listed, member, rfl⟩ := exists_direct_of_step step nonzero
  obtain ⟨aside, asideMember, rfl⟩ := exists_direct_of_step asideStep asideNonzero
  revert aside listed
  decide

theorem square_next (p d : Pos) (more : Nat) :
    ((p.advance d 1).x - (p.advance d (more + 1 : Nat)).x) *
        ((p.advance d 1).x - (p.advance d (more + 1 : Nat)).x) +
      ((p.advance d 1).y - (p.advance d (more + 1 : Nat)).y) *
        ((p.advance d 1).y - (p.advance d (more + 1 : Nat)).y) =
      (d.x * d.x + d.y * d.y) * (more * more) := by
  simp only [advance_x, advance_y]
  push_cast
  ring

theorem square_aside (p d u : Pos) (more : Nat) :
    ((p.advance u 1).x - (p.advance d (more + 1 : Nat)).x) *
        ((p.advance u 1).x - (p.advance d (more + 1 : Nat)).x) +
      ((p.advance u 1).y - (p.advance d (more + 1 : Nat)).y) *
        ((p.advance u 1).y - (p.advance d (more + 1 : Nat)).y) =
      (u.x * u.x + u.y * u.y) - 2 * (d.x * u.x + d.y * u.y) * (more + 1) +
        (d.x * d.x + d.y * d.y) * ((more + 1) * (more + 1)) := by
  simp only [advance_x, advance_y]
  push_cast
  ring

/-- Along a straight line the distance shrinks by its steps. -/
theorem cost_next_straight (nextFree : w.Free (p.advance d 1))
    (endFree : w.Free (p.advance d (more + 1 : Nat))) (square : d.x * d.x + d.y * d.y = 1) :
    cost (p.advance d 1) (p.advance d (more + 1 : Nat)) ≤ 100 * more := by
  have bound := cost_mul_self_le nextFree endFree
  rw [square_next, square] at bound
  exact (mul_self_le_mul_self_iff (cost_range nextFree endFree).1 (by positivity)).mpr
    (by linarith)

theorem cost_next_diagonal (nextFree : w.Free (p.advance d 1))
    (endFree : w.Free (p.advance d (more + 1 : Nat))) (square : d.x * d.x + d.y * d.y = 2) :
    2 * cost (p.advance d 1) (p.advance d (more + 1 : Nat)) ≤ 283 * more := by
  have bound := cost_mul_self_le nextFree endFree
  rw [square_next, square] at bound
  have nonneg := (cost_range nextFree endFree).1
  have squared : (0 : Int) ≤ more * more := by positivity
  exact (mul_self_le_mul_self_iff (by linarith) (by positivity)).mpr (by linarith)

/-- A step along the line costs no more than what it brings the end nearer. -/
theorem cost_next_add_le (pFree : w.Free p) (nextFree : w.Free (p.advance d 1))
    (endFree : w.Free (p.advance d (more + 1 : Nat))) (step : d.IsStep)
    (nonzero : d ≠ ⟨0, 0⟩) :
    directCost d + cost (p.advance d 1) (p.advance d (more + 1 : Nat)) ≤
      cost p (p.advance d (more + 1 : Nat)) := by
  have nonneg := (cost_range nextFree endFree).1
  have bound := cost_mul_self_le nextFree endFree
  have here := square_aside p d ⟨0, 0⟩ more
  rw [show p.advance ⟨0, 0⟩ 1 = p by simp [advance]] at here
  refine le_cost pFree endFree (by omega) ?_
  rw [here]
  rw [square_next] at bound
  rcases square_and_cost step nonzero with ⟨square, isCost⟩ | ⟨square, isCost⟩
  · have near := cost_next_straight nextFree endFree square
    rw [square] at bound
    rw [square, isCost]
    nlinarith
  · have near := cost_next_diagonal nextFree endFree square
    rw [square] at bound
    rw [square, isCost]
    nlinarith

/-- A step along the line weighs less than any other one. -/
theorem cost_next_add_lt (nextFree : w.Free (p.advance d 1)) (asideFree : w.Free (p.advance u 1))
    (endFree : w.Free (p.advance d (more + 1 : Nat))) (step : d.IsStep)
    (nonzero : d ≠ ⟨0, 0⟩) (asideStep : u.IsStep) (asideNonzero : u ≠ ⟨0, 0⟩)
    (different : u ≠ d) :
    directCost d + cost (p.advance d 1) (p.advance d (more + 1 : Nat)) <
      directCost u + cost (p.advance u 1) (p.advance d (more + 1 : Nat)) := by
  have nonneg := (cost_range nextFree endFree).1
  rcases square_and_cost step nonzero with ⟨square, isCost⟩ | ⟨square, isCost⟩
  · obtain ⟨squares, cheap⟩ :=
      aside_of_straight step nonzero asideStep asideNonzero different square
    have near := cost_next_straight nextFree endFree square
    have forward : d.x * u.x + d.y * u.y ≤ 1 := by
      simp only [IsStep] at asideStep
      nlinarith
    have far : 100 * (more + 1 - (d.x * u.x + d.y * u.y)) ≤
        cost (p.advance u 1) (p.advance d (more + 1 : Nat)) := by
      refine le_cost asideFree endFree (by omega) ?_
      rw [square_aside, square]
      nlinarith
    rw [isCost]
    linarith
  · obtain ⟨forward, positive, dear⟩ :=
      aside_of_diagonal step nonzero asideStep asideNonzero different square
    have near := cost_next_diagonal nextFree endFree square
    have bound := cost_mul_self_le nextFree endFree
    rw [square_next, square] at bound
    have far : 42 + cost (p.advance d 1) (p.advance d (more + 1 : Nat)) ≤
        cost (p.advance u 1) (p.advance d (more + 1 : Nat)) := by
      refine le_cost asideFree endFree (by omega) ?_
      rw [square_aside, square]
      nlinarith
    rw [isCost]
    linarith

end Weights

/-- The positions of a line before it has gone on for `count` steps, the last one at the head. -/
def lineFrom (s d : Pos) : Nat → List Pos
  | 0 => []
  | count + 1 => s.advance d count :: lineFrom s d count

/-- What is discovered from the positions of a line: its start and their neighbours. -/
def AlongLine (w : World) (s d : Pos) (count : Nat) (p : Pos) (total : Nat) : Prop :=
  (p = s ∧ total = 0) ∨ ∃ index < count, ∃ u : Pos, u.IsStep ∧ u ≠ ⟨0, 0⟩ ∧
    p = (s.advance d index).advance u 1 ∧ w.Free p ∧
      total = index * directCost d + directCost u

section Lines

variable {w : World} {s e d u p : Pos} {count length index total : Nat}

theorem advance_rest (s d : Pos) (more : Nat) (rest : index + more = length) :
    s.advance d length = (s.advance d index).advance d more := by
  rw [advance_advance, ← Nat.cast_add, rest]

theorem advance_succ (s d : Pos) (index : Nat) :
    (s.advance d index).advance d 1 = s.advance d (index + 1 : Nat) := by
  rw [advance_advance, Nat.cast_succ]

theorem mem_lineFrom : p ∈ lineFrom s d count ↔ ∃ index < count, p = s.advance d index := by
  induction count with
  | zero => simp [lineFrom]
  | succ count ih =>
      rw [lineFrom, List.mem_cons, ih]
      constructor
      · rintro (rfl | ⟨index, before, rfl⟩)
        · exact ⟨count, Nat.lt_succ_self count, rfl⟩
        · exact ⟨index, before.trans (Nat.lt_succ_self count), rfl⟩
      · rintro ⟨index, before, rfl⟩
        rcases Nat.lt_succ_iff_lt_or_eq.mp before with before | rfl
        · exact Or.inr ⟨index, before, rfl⟩
        · exact Or.inl rfl

/-- A neighbour of a position of the line that lies further on the line is the next one. -/
theorem eq_of_advance_eq (step : d.IsStep) (nonzero : d ≠ ⟨0, 0⟩) (asideStep : u.IsStep)
    (before : index < count)
    (same : (s.advance d index).advance u 1 = s.advance d count) : count = index + 1 ∧ u = d := by
  simp only [IsStep] at asideStep
  rcases eq_neighbour step nonzero with rfl | rfl | rfl | rfl | rfl | rfl | rfl | rfl
  all_goals
    simp only [GridCell.ext_iff, advance] at same ⊢
    omega

theorem eq_zero_of_advance_eq (nonzero : d ≠ ⟨0, 0⟩) (same : s.advance d count = s) :
    count = 0 := by
  obtain ⟨dx, dy⟩ := d
  simp only [GridCell.ext_iff, advance, ne_eq] at same nonzero
  by_contra positive
  have zero : ∀ a : Int, a * count = 0 → a = 0 := fun a isZero =>
    (mul_eq_zero.mp isZero).resolve_right (by exact_mod_cast positive)
  exact nonzero ⟨zero dx (by omega), zero dy (by omega)⟩

theorem AlongLine.mono (along : AlongLine w s d count p total) :
    AlongLine w s d (count + 1) p total :=
  along.imp_right fun ⟨index, before, rest⟩ => ⟨index, before.trans (Nat.lt_succ_self count), rest⟩

/-- When a line has been followed, its next position has the cost of the steps, and all that
was discovered lies along it. -/
theorem firstCost_lineFrom (step : d.IsStep) (nonzero : d ≠ ⟨0, 0⟩)
    (clear : ∀ index : Nat, index ≤ length → w.Free (s.advance d index))
    (within : count ≤ length) :
    firstCost (Move w) lineCost s (lineFrom s d count) (s.advance d count) =
        some (count * directCost d) ∧
      ∀ p total, firstCost (Move w) lineCost s (lineFrom s d count) p = some total →
        AlongLine w s d count p total := by
  induction count with
  | zero =>
      constructor
      · rw [Nat.cast_zero, advance_zero, lineFrom, firstCost, if_pos rfl, Nat.zero_mul]
      · intro p total isFirst
        rw [lineFrom, firstCost] at isFirst
        split at isFirst
        next isStart =>
          exact Or.inl ⟨isStart, (Option.some.inj isFirst).symm⟩
        next => cases isFirst
  | succ count ih =>
      obtain ⟨isKnown, alongs⟩ := ih (Nat.le_of_succ_le within)
      have isNew : firstCost (Move w) lineCost s (lineFrom s d count)
          (s.advance d (count + 1 : Nat)) = none := by
        rw [Option.eq_none_iff_forall_ne_some]
        intro total isFirst
        rcases alongs _ total isFirst with ⟨isStart, -⟩ | ⟨index, before, u, asideStep, -, same, -⟩
        · exact absurd (eq_zero_of_advance_eq nonzero isStart) (Nat.succ_ne_zero count)
        · have next := eq_of_advance_eq step nonzero asideStep (by omega) same.symm
          omega
      have further := (advance_succ s d count).symm
      constructor
      · have move : Move w (s.advance d count) (s.advance d (count + 1 : Nat)) :=
          ⟨clear count (Nat.le_of_succ_le within), clear (count + 1) within, d, step, nonzero,
            further⟩
        have stepCost := lineCost_advance step nonzero Nat.one_pos (s.advance d count)
        rw [Nat.cast_one, ← further, Nat.one_mul] at stepCost
        rw [lineFrom, firstCost_cons_of_move isNew move isKnown, stepCost, Nat.succ_mul]
      · intro p total isFirst
        rcases firstCost_cons_eq_some isFirst with old | ⟨-, move, known, isAlso, rfl⟩
        · exact (alongs p total old).mono
        · obtain rfl := Option.some.inj (isKnown.symm.trans isAlso)
          obtain ⟨-, pFree, u, asideStep, asideNonzero, rfl⟩ := move
          have stepCost := lineCost_advance asideStep asideNonzero Nat.one_pos (s.advance d count)
          rw [Nat.cast_one, Nat.one_mul] at stepCost
          exact Or.inr ⟨count, Nat.lt_succ_self count, u, asideStep, asideNonzero, rfl, pFree,
            by rw [stepCost]⟩

/-- The weights of the positions of a line do not rise. -/
theorem cost_line_le {first : Nat} (step : d.IsStep) (nonzero : d ≠ ⟨0, 0⟩)
    (clear : ∀ index : Nat, index ≤ length → w.Free (s.advance d index))
    (ordered : first ≤ index) (within : index ≤ length) :
    (index * directCost d : Nat) + cost (s.advance d index) (s.advance d length) ≤
      (first * directCost d : Nat) + cost (s.advance d first) (s.advance d length) := by
  induction index, ordered using Nat.le_induction with
  | base => exact le_refl _
  | succ index _ ih =>
      have nearer := ih (Nat.le_of_succ_le within)
      have rest := advance_rest s d (length - (index + 1) + 1)
        (by omega : index + (length - (index + 1) + 1) = length)
      have endFree := clear length (le_refl length)
      have nextFree := clear (index + 1) within
      rw [rest] at endFree
      rw [← advance_succ] at nextFree
      have further := cost_next_add_le (clear index (Nat.le_of_succ_le within)) nextFree endFree
        step nonzero
      rw [← rest, advance_succ] at further
      rw [Nat.succ_mul]
      push_cast at nearer further ⊢
      linarith

/-- A map is not wider than its positions are apart. -/
theorem length_le (step : d.IsStep) (nonzero : d ≠ ⟨0, 0⟩) (startFree : w.Free s)
    (endFree : w.Free (s.advance d length)) : length ≤ 32767 := by
  have startRange := startFree.inMapRange
  have endRange := endFree.inMapRange
  rcases eq_neighbour step nonzero with rfl | rfl | rfl | rfl | rfl | rfl | rfl | rfl
  all_goals
    simp only [InMapRange, advance] at startRange endRange
    omega

theorem weigh_of_ne {known : Nat} (pFree : w.Free p) (eFree : w.Free e) (different : p ≠ e)
    (small : known ≤ 10000000) : weigh e p known = known + cost p e := by
  have range := cost_range pFree eFree
  rw [weigh, if_neg different, toInt32_of_range (by omega) (by omega)]

/-- The next position of a line weighs less than all others that were discovered. -/
theorem weigh_line_lt (step : d.IsStep) (nonzero : d ≠ ⟨0, 0⟩)
    (clear : ∀ index : Nat, index ≤ length → w.Free (s.advance d index))
    (within : count ≤ length) (before : index < count) (asideStep : u.IsStep)
    (asideNonzero : u ≠ ⟨0, 0⟩) (different : u ≠ d)
    (asideFree : w.Free ((s.advance d index).advance u 1)) :
    weigh (s.advance d length) (s.advance d count) (count * directCost d) <
      weigh (s.advance d length) ((s.advance d index).advance u 1)
        (index * directCost d + directCost u) := by
  have startFree := clear 0 (Nat.zero_le length)
  rw [Nat.cast_zero, advance_zero] at startFree
  have endFree := clear length (le_refl length)
  have short := length_le step nonzero startFree endFree
  have cheap : directCost d ≤ 141 := by
    rcases square_and_cost step nonzero with ⟨-, isCost⟩ | ⟨-, isCost⟩ <;> omega
  have asideCost : 100 ≤ directCost u ∧ directCost u ≤ 141 := by
    rcases square_and_cost asideStep asideNonzero with ⟨-, isCost⟩ | ⟨-, isCost⟩ <;> omega
  have known : ∀ steps ≤ length, steps * directCost d ≤ 32767 * 141 := fun steps few =>
    Nat.mul_le_mul (few.trans short) cheap
  have notEnd : (s.advance d index).advance u 1 ≠ s.advance d length := by
    intro same
    exact different (eq_of_advance_eq step nonzero asideStep (by omega) same).2
  have knownAside := known index (by omega)
  have asideRange := cost_range asideFree endFree
  rw [weigh_of_ne asideFree endFree notEnd (by omega)]
  rcases eq_or_lt_of_le within with rfl | more
  · rw [weigh, if_pos rfl]
    omega
  · have notLast : s.advance d count ≠ s.advance d length := by
      intro same
      rw [advance_rest s d (length - count) (by omega : count + (length - count) = length)] at same
      have none := eq_zero_of_advance_eq nonzero same.symm
      omega
    rw [weigh_of_ne (clear count within) endFree notLast (by have := known count within; omega)]
    have shrinks := cost_line_le step nonzero clear (show index + 1 ≤ count from before) within
    have rest := advance_rest s d (length - (index + 1) + 1)
      (by omega : index + (length - (index + 1) + 1) = length)
    have nextFree := clear (index + 1) (by omega)
    rw [← advance_succ] at nextFree
    rw [rest] at endFree
    have less := cost_next_add_lt nextFree asideFree endFree step nonzero asideStep
      asideNonzero different
    rw [← rest, advance_succ] at less
    rw [Nat.succ_mul] at shrinks
    push_cast at shrinks less ⊢
    linarith

theorem eq_of_isNext (step : d.IsStep) (nonzero : d ≠ ⟨0, 0⟩)
    (clear : ∀ index : Nat, index ≤ length → w.Free (s.advance d index))
    (within : count ≤ length)
    (isNext : IsNext (Move w) lineCost (weigh (s.advance d length)) s (lineFrom s d count) p) :
    p = s.advance d count := by
  obtain ⟨isKnown, alongs⟩ := firstCost_lineFrom step nonzero clear within
  obtain ⟨fresh, known, isFirst, least⟩ := isNext
  have opened : s.advance d count ∉ lineFrom s d count := by
    intro member
    obtain ⟨index, before, same⟩ := mem_lineFrom.mp member
    rw [advance_rest s d (count - index) (by omega : index + (count - index) = count)] at same
    have none := eq_zero_of_advance_eq nonzero same
    omega
  have atMost := least _ opened _ isKnown
  rcases alongs p known isFirst with
    ⟨rfl, -⟩ | ⟨index, before, u, asideStep, asideNonzero, rfl, asideFree, rfl⟩
  · rcases Nat.eq_zero_or_pos count with rfl | positive
    · rw [Nat.cast_zero, advance_zero]
    · exact absurd (mem_lineFrom.mpr ⟨0, positive, by simp⟩) fresh
  · by_cases same : u = d
    · subst same
      rw [advance_succ] at fresh ⊢
      by_contra differs
      have earlier : index + 1 < count := by
        refine lt_of_le_of_ne before ?_
        rintro rfl
        exact differs rfl
      exact fresh (mem_lineFrom.mpr ⟨index + 1, earlier, rfl⟩)
    · have less := weigh_line_lt step nonzero clear within before asideStep asideNonzero same
        asideFree
      exact absurd atMost (not_le.mpr less)

/-- The search follows a clear line to its end. -/
theorem exists_eq_lineFrom {closed : List Pos} (step : d.IsStep) (nonzero : d ≠ ⟨0, 0⟩)
    (clear : ∀ index : Nat, index ≤ length → w.Free (s.advance d index))
    (inOrder : ClosedInOrder (Move w) lineCost (weigh (s.advance d length)) s
      (s.advance d length) closed) : ∃ count ≤ length, closed = lineFrom s d count := by
  induction inOrder with
  | start => exact ⟨0, Nat.zero_le length, rfl⟩
  | close _ isNext differs ih =>
      obtain ⟨count, within, rfl⟩ := ih
      obtain rfl := eq_of_isNext step nonzero clear within isNext
      have more : count < length := by
        refine lt_of_le_of_ne within ?_
        rintro rfl
        exact differs rfl
      exact ⟨count + 1, more, rfl⟩

end Lines

/-- The least cost of the steps between two positions of an open map. -/
def octile (p q : Pos) : Nat :=
  100 * max (q.x - p.x).natAbs (q.y - p.y).natAbs +
    41 * min (q.x - p.x).natAbs (q.y - p.y).natAbs

section Ways

variable {w : World} {s p q d : Pos} {length : Nat}

theorem octile_rises (s : Pos) (move : Move w p q) :
    octile s q ≤ octile s p + lineCost p q := by
  obtain ⟨-, -, direction, step, nonzero, rfl⟩ := move
  have isLine := lineCost_advance step nonzero Nat.one_pos p
  rw [Nat.cast_one, Nat.one_mul] at isLine
  have isCost := square_and_cost step nonzero
  rw [isLine]
  generalize directCost direction = known at isCost
  rcases eq_neighbour step nonzero with rfl | rfl | rfl | rfl | rfl | rfl | rfl | rfl
  all_goals
    simp only [octile, advance, mul_one] at isCost ⊢
    omega

theorem octile_line (step : d.IsStep) (nonzero : d ≠ ⟨0, 0⟩) :
    octile s (s.advance d length) = length * directCost d := by
  have isCost := square_and_cost step nonzero
  obtain ⟨known, same⟩ : ∃ known, directCost d = known := ⟨_, rfl⟩
  rw [same] at isCost ⊢
  have costCases : known = 100 ∨ known = 141 := by omega
  rcases eq_neighbour step nonzero with rfl | rfl | rfl | rfl | rfl | rfl | rfl | rfl
  all_goals
    simp only [octile, advance] at isCost ⊢
    rcases costCases with rfl | rfl <;> omega

/-- No way is cheaper than a line. -/
theorem le_of_way {total : Nat} (step : d.IsStep) (nonzero : d ≠ ⟨0, 0⟩)
    (way : Way (Move w) lineCost s (s.advance d length) total) : length * directCost d ≤ total := by
  have bound := way.le_of_potential fun _ _ move => octile_rises s move
  rw [octile_line step nonzero] at bound
  have here : octile s s = 0 := by simp [octile]
  omega

end Ways

/-- The search closes positions in the order of the costs at which they were discovered first
and the distances to the end, until the end follows.  The path that is found leads through
free positions and costs as much as the end when it was discovered first, and when a clear line
leads from the start to the end, no way is cheaper. -/
theorem path_in_order (w : World) (s e : Pos) (different : s ≠ e)
    (reachable : Reachable w s e) :
    ∃ ret closed, Finds w cost e false s ret ∧
      (∀ other, Finds w cost e false s other → other = ret) ∧
      ClosedInOrder (Move w) lineCost (weigh e) s e closed ∧
      IsNext (Move w) lineCost (weigh e) s closed e ∧
      firstCost (Move w) lineCost s closed e = some (pathCost ret) ∧
      Way (Move w) lineCost s e (pathCost ret) ∧
      (ClearLine w.Free s e →
        ∀ other, Way (Move w) lineCost s e other → pathCost ret ≤ other) := by
  obtain ⟨ret, closed, finds, inOrder, isNext, isFirst, way⟩ :=
    exists_firstCost different reachable
  obtain ⟨startFree, endFree⟩ := reachable.free different
  refine ⟨ret, closed, finds, fun _ => finds.unique startFree endFree different, inOrder, isNext,
    isFirst, way, ?_⟩
  rintro ⟨d, length, step, rfl, clear⟩ other otherWay
  have nonzero : d ≠ ⟨0, 0⟩ := by
    rintro rfl
    exact different (by simp [advance])
  obtain ⟨count, within, rfl⟩ := exists_eq_lineFrom step nonzero clear inOrder
  have isLast := eq_of_isNext step nonzero clear within isNext
  have isKnown := (firstCost_lineFrom step nonzero clear within).1
  rw [← isLast] at isKnown
  rw [advance_rest s d (length - count) (by omega : count + (length - count) = length)] at isLast
  have none := eq_zero_of_advance_eq nonzero isLast
  obtain rfl : count = length := by omega
  obtain same := Option.some.inj (isKnown.symm.trans isFirst)
  rw [← same]
  exact le_of_way step nonzero otherWay

theorem cornerWorld_len : -32768 ≤ (3 : Int) ∧ (3 : Int) ≤ 32767 := by
  decide

theorem cornerWorld_wid : -32768 ≤ (4 : Int) ∧ (4 : Int) ≤ 32767 := by
  decide

/-- A map whose corner at the origin is reached around two blocked positions. -/
def cornerWorld : World where
  len := 3
  wid := 4
  block := fun p => if p = ⟨0, 1⟩ ∨ p = ⟨1, 1⟩ then some 1 else none
  lenInt16 := cornerWorld_len
  widInt16 := cornerWorld_wid

theorem cornerWorld_way : Way (Move cornerWorld) lineCost ⟨2, 3⟩ ⟨0, 0⟩ 441 := by
  have first : Move cornerWorld ⟨2, 3⟩ ⟨2, 2⟩ :=
    ⟨by decide, by decide, ⟨0, -1⟩, by decide, by decide, rfl⟩
  have second : Move cornerWorld ⟨2, 2⟩ ⟨2, 1⟩ :=
    ⟨by decide, by decide, ⟨0, -1⟩, by decide, by decide, rfl⟩
  have third : Move cornerWorld ⟨2, 1⟩ ⟨1, 0⟩ :=
    ⟨by decide, by decide, ⟨-1, -1⟩, by decide, by decide, rfl⟩
  have fourth : Move cornerWorld ⟨1, 0⟩ ⟨0, 0⟩ :=
    ⟨by decide, by decide, ⟨-1, 0⟩, by decide, by decide, rfl⟩
  exact (((Way.start.step first).step second).step third).step fourth

theorem cornerWorld_finds : Finds cornerWorld cost ⟨0, 0⟩ false ⟨2, 3⟩
    [⟨0, 0⟩, ⟨1, 0⟩, ⟨2, 1⟩, ⟨1, 2⟩, ⟨2, 3⟩] :=
  ⟨12, by decide +kernel⟩

theorem cornerWorld_line : ClearLine cornerWorld.Free ⟨2, 3⟩ ⟨2, 0⟩ :=
  ⟨⟨0, -1⟩, 3, by decide, by decide, by decide⟩

theorem path_in_order_corner :
    (∃ closed, ClosedInOrder (Move cornerWorld) lineCost (weigh ⟨0, 0⟩) ⟨2, 3⟩ ⟨0, 0⟩ closed ∧
      IsNext (Move cornerWorld) lineCost (weigh ⟨0, 0⟩) ⟨2, 3⟩ closed ⟨0, 0⟩ ∧
      firstCost (Move cornerWorld) lineCost ⟨2, 3⟩ closed ⟨0, 0⟩ = some 523) ∧
    ∃ ret, Finds cornerWorld cost ⟨2, 0⟩ false ⟨2, 3⟩ ret ∧
      ∀ other, Way (Move cornerWorld) lineCost ⟨2, 3⟩ ⟨2, 0⟩ other → pathCost ret ≤ other := by
  constructor
  · obtain ⟨ret, closed, -, unique, inOrder, isNext, isFirst, -⟩ :=
      path_in_order cornerWorld ⟨2, 3⟩ ⟨0, 0⟩ (by decide) cornerWorld_way.reflTransGen
    obtain rfl := unique _ cornerWorld_finds
    exact ⟨closed, inOrder, isNext, isFirst⟩
  · have reachable : Reachable cornerWorld ⟨2, 3⟩ ⟨2, 0⟩ := by
      have moves : ∀ y ∈ [3, 2, 1], Move cornerWorld ⟨2, y⟩ ⟨2, y - 1⟩ := by decide
      exact ((ReflTransGen.single (moves 3 (by decide))).tail (moves 2 (by decide))).tail
        (moves 1 (by decide))
    obtain ⟨ret, closed, finds, -, -, -, -, -, cheapest⟩ :=
      path_in_order cornerWorld ⟨2, 3⟩ ⟨2, 0⟩ (by decide) reachable
    exact ⟨ret, finds, cheapest cornerWorld_line⟩

/-- The search goes diagonally at once and links the position below from there, so that a
straight step to it is dropped. -/
theorem not_cheapest_corner :
    ¬ ∀ (w : World) (s e : Pos), s ≠ e → Reachable w s e → ∀ ret, Finds w cost e false s ret →
      ∀ other, Way (Move w) lineCost s e other → pathCost ret ≤ other := by
  intro cheapest
  have atMost := cheapest cornerWorld ⟨2, 3⟩ ⟨0, 0⟩ (by decide) cornerWorld_way.reflTransGen _
    cornerWorld_finds _ cornerWorld_way
  exact absurd atMost (by decide)

end Astar

end LuaServer
