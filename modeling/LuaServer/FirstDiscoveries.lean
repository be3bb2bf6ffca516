import LuaServer.PredecessorLinks

/-!
# First discoveries

A search closes vertices one after the other, and the moves of a closed vertex lead to
vertices that are discovered.  A vertex keeps the cost at which it was discovered first,
even when a cheaper way to it appears later.  Of the vertices that are discovered and not
closed, one of the least weight is closed next.
-/

namespace LuaServer

namespace FirstDiscoveries

open PredecessorLinks Relation

variable {Vertex : Type*}

section Ways

/-- The moves from a vertex lead to another one, at this total cost. -/
inductive Way (move : Vertex → Vertex → Prop) (cost : Vertex → Vertex → Nat)
    (first : Vertex) : Vertex → Nat → Prop
  | start : Way move cost first first 0
  | step {vertex next : Vertex} {total : Nat} (way : Way move cost first vertex total)
      (isMove : move vertex next) : Way move cost first next (total + cost vertex next)

/-- The links of a vertex lead back to the root, at this total cost. -/
inductive LinkCost (links : Vertex → Option Vertex) (cost : Vertex → Vertex → Nat)
    (root : Vertex) : Vertex → Nat → Prop
  | root : LinkCost links cost root root 0
  | link {vertex before : Vertex} {total : Nat} (isCost : LinkCost links cost root before total)
      (isLink : links vertex = some before) :
      LinkCost links cost root vertex (total + cost before vertex)

variable {move : Vertex → Vertex → Prop} {cost : Vertex → Vertex → Nat}
  {links later : Vertex → Option Vertex} {root vertex : Vertex} {total : Nat}

theorem Way.reflTransGen {first last : Vertex} (way : Way move cost first last total) :
    ReflTransGen move first last := by
  induction way with
  | start => exact .refl
  | step _ isMove ih => exact ih.tail isMove

/-- What no move raises by more than its cost bounds the cost of a way. -/
theorem Way.le_of_potential {first last : Vertex} {potential : Vertex → Nat}
    (rises : ∀ vertex next, move vertex next →
      potential next ≤ potential vertex + cost vertex next)
    (way : Way move cost first last total) : potential last ≤ potential first + total := by
  induction way with
  | start => exact le_refl _
  | @step vertex next total way isMove ih =>
      have rise := rises vertex next isMove
      omega

theorem LinkCost.unique (unlinked : links root = none) {other : Nat}
    (isCost : LinkCost links cost root vertex total)
    (isOther : LinkCost links cost root vertex other) : other = total := by
  induction isCost generalizing other with
  | root =>
      cases isOther with
      | root => rfl
      | link _ isLink => exact nomatch unlinked.symm.trans isLink
  | link _ isLink ih =>
      cases isOther with
      | root => exact nomatch unlinked.symm.trans isLink
      | link isOther isOtherLink =>
          obtain rfl := Option.some.inj (isLink.symm.trans isOtherLink)
          rw [ih isOther]

theorem LinkCost.mono (grows : Extends later links)
    (isCost : LinkCost links cost root vertex total) : LinkCost later cost root vertex total := by
  induction isCost with
  | root => exact .root
  | link _ isLink ih => exact ih.link (grows _ _ isLink)

theorem LinkCost.way (isMove : ∀ vertex before, links vertex = some before → move before vertex)
    (isCost : LinkCost links cost root vertex total) : Way move cost root vertex total := by
  induction isCost with
  | root => exact .start
  | link _ isLink ih => exact ih.step (isMove _ _ isLink)

end Ways

section Orders

variable [DecidableEq Vertex] (move : Vertex → Vertex → Prop) [DecidableRel move]
  (cost : Vertex → Vertex → Nat) (weight : Vertex → Nat → Int) (root target : Vertex)

/-- The cost at which a vertex was discovered first, if it was, when these vertices have
been closed, the last one at the head. -/
def firstCost : List Vertex → Vertex → Option Nat
  | [], vertex => if vertex = root then some 0 else none
  | last :: closed, vertex =>
      (firstCost closed vertex).or
        (if move last vertex then (firstCost closed last).map (· + cost last vertex) else none)

/-- A vertex that was discovered and not closed, of the least weight. -/
structure IsNext (closed : List Vertex) (vertex : Vertex) : Prop where
  fresh : vertex ∉ closed
  least : ∃ known, firstCost move cost root closed vertex = some known ∧
    ∀ other ∉ closed, ∀ total, firstCost move cost root closed other = some total →
      weight vertex known ≤ weight other total

/-- Vertices other than the target that are closed in the order of their weights, the
last one at the head. -/
inductive ClosedInOrder : List Vertex → Prop
  | start : ClosedInOrder []
  | close {closed : List Vertex} {vertex : Vertex} (inOrder : ClosedInOrder closed)
      (isNext : IsNext move cost weight root closed vertex) (differs : vertex ≠ target) :
      ClosedInOrder (vertex :: closed)

variable {move cost weight root target} {closed : List Vertex} {vertex last : Vertex}
  {known total : Nat}

theorem firstCost_cons_of_some (isFirst : firstCost move cost root closed vertex = some known) :
    firstCost move cost root (last :: closed) vertex = some known := by
  rw [firstCost, isFirst, Option.some_or]

theorem firstCost_cons_of_move (isNew : firstCost move cost root closed vertex = none)
    (isMove : move last vertex) (isKnown : firstCost move cost root closed last = some known) :
    firstCost move cost root (last :: closed) vertex = some (known + cost last vertex) := by
  rw [firstCost, isNew, if_pos isMove, isKnown]
  rfl

theorem firstCost_cons_eq_some
    (isFirst : firstCost move cost root (last :: closed) vertex = some total) :
    firstCost move cost root closed vertex = some total ∨
      firstCost move cost root closed vertex = none ∧ move last vertex ∧
        ∃ known, firstCost move cost root closed last = some known ∧
          total = known + cost last vertex := by
  rw [firstCost] at isFirst
  cases before : firstCost move cost root closed vertex with
  | some known =>
      rw [before, Option.some_or] at isFirst
      exact Or.inl isFirst
  | none =>
      rw [before, Option.none_or] at isFirst
      split at isFirst
      next isMove =>
        obtain ⟨known, isKnown, rfl⟩ := Option.map_eq_some_iff.mp isFirst
        exact Or.inr ⟨rfl, isMove, known, isKnown, rfl⟩
      next => cases isFirst

/-- Closed vertices have been discovered. -/
theorem ClosedInOrder.exists_firstCost (inOrder : ClosedInOrder move cost weight root target closed)
    (member : vertex ∈ closed) : ∃ known, firstCost move cost root closed vertex = some known := by
  induction inOrder with
  | start => exact absurd member List.not_mem_nil
  | close _ isNext _ ih =>
      rcases List.mem_cons.mp member with rfl | inClosed
      · obtain ⟨known, isKnown, -⟩ := isNext.least
        exact ⟨known, firstCost_cons_of_some isKnown⟩
      · obtain ⟨known, isKnown⟩ := ih inClosed
        exact ⟨known, firstCost_cons_of_some isKnown⟩

end Orders

end FirstDiscoveries

end LuaServer
