import Mathlib.Logic.Relation
import Mathlib.Tactic.Common

/-!
# Simulations of programs that may fail

A program that may fail follows an abstract machine from a state of it when the program
returns, and the machine has steps to a state that fits what is returned.  What is
returned by one program is where the next one begins.
-/

namespace LuaServer

namespace PartialSimulations

universe u

variable {State Item : Type*} {α β : Type u} {Step : State → State → Prop}

/-- The program returns, and the machine gets to a state that fits. -/
def Follows (Step : State → State → Prop) (state : State) (program : Option α)
    (fits : State → α → Prop) : Prop :=
  ∃ result, program = some result ∧ ∃ state', Relation.ReflTransGen Step state state' ∧
    fits state' result

variable {state state' : State} {program : Option α} {fits : State → α → Prop}

theorem follows_some {result : α} (fit : fits state result) :
    Follows Step state (some result) fits :=
  ⟨result, rfl, state, Relation.ReflTransGen.refl, fit⟩

theorem Follows.of_moves (moves : Relation.ReflTransGen Step state state')
    (follows : Follows Step state' program fits) : Follows Step state program fits := by
  obtain ⟨result, eq, last, steps, fit⟩ := follows
  exact ⟨result, eq, last, moves.trans steps, fit⟩

theorem Follows.step (step : Step state state') (follows : Follows Step state' program fits) :
    Follows Step state program fits :=
  follows.of_moves (.single step)

theorem Follows.mono {fits' : State → α → Prop} (follows : Follows Step state program fits)
    (weaker : ∀ state' result, fits state' result → fits' state' result) :
    Follows Step state program fits' := by
  obtain ⟨result, eq, last, steps, fit⟩ := follows
  exact ⟨result, eq, last, steps, weaker last result fit⟩

theorem Follows.bind {next : α → Option β} {fits' : State → β → Prop}
    (first : Follows Step state program fits)
    (second : ∀ state' result, fits state' result → Follows Step state' (next result) fits') :
    Follows Step state (program >>= next) fits' := by
  obtain ⟨result, eq, middle, steps, fit⟩ := first
  obtain ⟨result', eq', last, steps', fit'⟩ := second middle result fit
  exact ⟨result', by rw [eq, Option.bind_eq_bind, Option.bind_some, eq'], last,
    steps.trans steps', fit'⟩

/-- A loop over a list keeps a relation that may depend on what is left of the list. -/
theorem follows_foldlM {items : List Item} {round : α → Item → Option α} {start : α}
    (keeps : List Item → State → α → Prop) (first : keeps items state start)
    (next : ∀ item rest state' result, keeps (item :: rest) state' result →
      Follows Step state' (round result item) (keeps rest)) :
    Follows Step state (items.foldlM round start) (keeps []) := by
  induction items generalizing state start with
  | nil => exact follows_some first
  | cons item rest ih =>
      rw [List.foldlM_cons]
      exact (next item rest state start first).bind fun state' result fit => ih fit

end PartialSimulations

end LuaServer
