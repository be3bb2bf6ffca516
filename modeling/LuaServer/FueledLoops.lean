import Mathlib.Logic.Relation
import Mathlib.Tactic.Common

/-!
# Loops with fuel

A C++ or Lua `while` loop is given by its body, which either continues with a
new loop state or leaves the loop with a result.  Running the loop on explicit
fuel keeps it executable; the relations `Returns` and `Diverges` forget the
fuel, so that a statement about a loop never mentions it.  The rules below are
the usual ones: an invariant for what the loop returns, a decreasing measure
for termination, and a set of states that is never left for divergence.
-/

namespace LuaServer

namespace FueledLoops

variable {State Result : Type*}

/-- Run a loop body for at most `fuel` rounds. -/
def loop (body : State → State ⊕ Result) : Nat → State → Option Result
  | 0, _ => none
  | fuel + 1, state =>
      match body state with
      | .inl next => loop body fuel next
      | .inr result => some result

/-- The loop started in `state` leaves with `result`. -/
def Returns (body : State → State ⊕ Result) (state : State)
    (result : Result) : Prop :=
  ∃ fuel, loop body fuel state = some result

/-- The loop started in `state` never leaves. -/
def Diverges (body : State → State ⊕ Result) (state : State) : Prop :=
  ∀ fuel, loop body fuel state = none

/-- One round of the loop, as a relation between loop states. -/
def Continues (body : State → State ⊕ Result) (state next : State) : Prop :=
  body state = .inl next

variable {body : State → State ⊕ Result} {state next : State}
  {result : Result}

theorem loop_continue {fuel : Nat} (continued : body state = .inl next) :
    loop body (fuel + 1) state = loop body fuel next := by
  simp only [loop, continued]

theorem loop_exit {fuel : Nat} (exits : body state = .inr result) :
    loop body (fuel + 1) state = some result := by
  simp only [loop, exits]

/-- More fuel never changes a result. -/
theorem loop_mono {fuel more : Nat} (enough : fuel ≤ more)
    (returned : loop body fuel state = some result) :
    loop body more state = some result := by
  induction fuel generalizing more state with
  | zero => simp [loop] at returned
  | succ fuel ih =>
      obtain ⟨more, rfl⟩ : ∃ rest, more = rest + 1 :=
        ⟨more - 1, by omega⟩
      cases stepped : body state with
      | inl next =>
          rw [loop_continue stepped] at returned ⊢
          exact ih (by omega) returned
      | inr left =>
          rw [loop_exit stepped] at returned ⊢
          exact returned

theorem Returns.unique {first second : Result}
    (returnsFirst : Returns body state first)
    (returnsSecond : Returns body state second) : first = second := by
  obtain ⟨fuelFirst, returnedFirst⟩ := returnsFirst
  obtain ⟨fuelSecond, returnedSecond⟩ := returnsSecond
  have atMaxFirst := loop_mono (Nat.le_max_left fuelFirst fuelSecond)
    returnedFirst
  have atMaxSecond := loop_mono (Nat.le_max_right fuelFirst fuelSecond)
    returnedSecond
  exact Option.some.inj (atMaxFirst.symm.trans atMaxSecond)

theorem returns_of_exit (exits : body state = .inr result) :
    Returns body state result :=
  ⟨1, loop_exit exits⟩

theorem returns_of_continue (continued : body state = .inl next)
    (returns : Returns body next result) : Returns body state result := by
  obtain ⟨fuel, returned⟩ := returns
  exact ⟨fuel + 1, (loop_continue continued).trans returned⟩

/-- The invariant rule: an invariant kept by every round holds in the state
in which the loop leaves. -/
theorem exit_of_invariant {fuel : Nat} (invariant : State → Prop)
    (keeps : ∀ current after, invariant current →
      body current = .inl after → invariant after)
    (initially : invariant state)
    (returned : loop body fuel state = some result) :
    ∃ last, invariant last ∧ Relation.ReflTransGen (Continues body) state last ∧
      body last = .inr result := by
  induction fuel generalizing state with
  | zero => simp [loop] at returned
  | succ fuel ih =>
      cases stepped : body state with
      | inl next =>
          rw [loop_continue stepped] at returned
          obtain ⟨last, kept, reaches, exits⟩ :=
            ih (keeps state next initially stepped) returned
          exact ⟨last, kept, Relation.ReflTransGen.head stepped reaches, exits⟩
      | inr left =>
          rw [loop_exit stepped] at returned
          obtain rfl := Option.some.inj returned
          exact ⟨state, initially, Relation.ReflTransGen.refl, stepped⟩

/-- The termination rule: a measure that every round of the invariant
decreases bounds the fuel the loop needs. -/
theorem loop_isSome_of_measure (invariant : State → Prop)
    (measure : State → Nat)
    (keeps : ∀ current after, invariant current →
      body current = .inl after →
        invariant after ∧ measure after < measure current)
    (initially : invariant state) {fuel : Nat}
    (enough : measure state < fuel) :
    (loop body fuel state).isSome := by
  induction fuel generalizing state with
  | zero => omega
  | succ fuel ih =>
      cases stepped : body state with
      | inl next =>
          rw [loop_continue stepped]
          obtain ⟨kept, decreased⟩ := keeps state next initially stepped
          exact ih kept (by omega)
      | inr left => simp [loop_exit stepped]

theorem exists_returns_of_measure (invariant : State → Prop)
    (measure : State → Nat)
    (keeps : ∀ current after, invariant current →
      body current = .inl after →
        invariant after ∧ measure after < measure current)
    (initially : invariant state) :
    ∃ result, Returns body state result := by
  have terminated := loop_isSome_of_measure invariant measure keeps
    initially (Nat.lt_succ_self (measure state))
  obtain ⟨result, returned⟩ := Option.isSome_iff_exists.mp terminated
  exact ⟨result, _, returned⟩

/-- The divergence rule: a set of states in which every round continues
inside the set is never left. -/
theorem diverges_of_invariant (invariant : State → Prop)
    (keeps : ∀ current, invariant current →
      ∃ after, body current = .inl after ∧ invariant after)
    (initially : invariant state) : Diverges body state := by
  intro fuel
  induction fuel generalizing state with
  | zero => rfl
  | succ fuel ih =>
      obtain ⟨after, stepped, kept⟩ := keeps state initially
      rw [loop_continue stepped]
      exact ih kept

/-- Every state on the way of a returning loop returns the same result. -/
theorem Returns.of_reaches (returns : Returns body state result)
    (reaches : Relation.ReflTransGen (Continues body) state next) :
    Returns body next result := by
  induction reaches with
  | refl => exact returns
  | @tail middle last _ continued ih =>
      obtain ⟨fuel, returned⟩ := ih
      cases fuel with
      | zero => simp [loop] at returned
      | succ fuel =>
          rw [loop_continue continued] at returned
          exact ⟨fuel, returned⟩

/-- The states a loop passes through on fuel. -/
def passes (body : State → State ⊕ Result) : Nat → State → List State
  | 0, _ => []
  | fuel + 1, state =>
      state ::
        match body state with
        | .inl next => passes body fuel next
        | .inr _ => []

/-- A returning loop passes through the states it reaches. -/
theorem mem_passes {fuel : Nat} (returned : (loop body fuel state).isSome = true) :
    next ∈ passes body fuel state ↔ Relation.ReflTransGen (Continues body) state next := by
  induction fuel generalizing state with
  | zero => simp [loop] at returned
  | succ fuel ih =>
      rw [passes, List.mem_cons, Relation.ReflTransGen.cases_head_iff, eq_comm]
      refine or_congr_right ?_
      cases stepped : body state with
      | inl middle =>
          rw [loop_continue stepped] at returned
          rw [ih returned]
          constructor
          · exact fun rest => ⟨middle, stepped, rest⟩
          · rintro ⟨other, continued, rest⟩
            obtain rfl := Sum.inl.inj (stepped.symm.trans continued)
            exact rest
      | inr result => simp [Continues, stepped]

end FueledLoops

end LuaServer
