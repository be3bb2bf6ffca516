import Mathlib.Data.List.Induction
import Mathlib.Tactic.Common

/-!
# Conditions on the steps of a run

A run is given by the list of its events.  When a condition on the next event keeps an
invariant that makes a state good, and a good state after the event needs the condition,
then all states of a run are good exactly when all its events meet the condition.
What an event has begun lasts until another one ends it.
-/

namespace LuaServer

namespace RunConditions

variable {Event : Type*} {history : List Event} {last : Event}

/-- An event of a longer history is the last one, or one of the history before. -/
theorem concat_eq_append_cons {before after : List Event} {event : Event} :
    history ++ [last] = before ++ event :: after ↔
      (history = before ∧ last = event ∧ after = []) ∨
        ∃ front, history = before ++ event :: front ∧ after = front ++ [last] := by
  constructor
  · intro split
    rcases List.eq_nil_or_concat after with rfl | ⟨front, final, rfl⟩
    · obtain ⟨same, sameLast⟩ := List.append_inj' split rfl
      exact Or.inl ⟨same, List.singleton_inj.mp sameLast, rfl⟩
    · rw [List.concat_eq_append, ← List.cons_append, ← List.append_assoc] at split
      obtain ⟨same, sameLast⟩ := List.append_inj' split rfl
      refine Or.inr ⟨front, same, ?_⟩
      rw [List.concat_eq_append, sameLast]
  · rintro (⟨rfl, rfl, rfl⟩ | ⟨front, rfl, rfl⟩)
    · rfl
    · rw [List.append_assoc, List.cons_append]

theorem forall_splits_concat {holds : List Event → Event → Prop} :
    (∀ before event after, history ++ [last] = before ++ event :: after → holds before event) ↔
      (∀ before event after, history = before ++ event :: after → holds before event) ∧
        holds history last := by
  simp only [concat_eq_append_cons]
  constructor
  · intro all
    refine ⟨fun before event after split => ?_, ?_⟩
    · exact all before event (after ++ [last]) (Or.inr ⟨after, split, rfl⟩)
    · exact all history last [] (Or.inl ⟨rfl, rfl, rfl⟩)
  · rintro ⟨all, here⟩ before event after (⟨rfl, rfl, -⟩ | ⟨front, split, -⟩)
    · exact here
    · exact all before event front split

theorem forall_splits_nil {holds : List Event → Event → Prop} :
    ∀ before event after, [] = before ++ event :: after → holds before event := by
  simp

theorem forall_splits_cons {holds : List Event → Event → Prop} {first : Event} :
    (∀ before event after, first :: history = before ++ event :: after → holds before event) ↔
      holds [] first ∧
        ∀ before event after, history = before ++ event :: after →
          holds (first :: before) event := by
  constructor
  · refine fun all => ⟨all [] first history rfl, fun before event after split => ?_⟩
    exact all (first :: before) event after (congrArg (first :: ·) split)
  · rintro ⟨here, later⟩ before event after split
    cases before with
    | nil =>
        obtain ⟨rfl, -⟩ := List.cons.inj split
        exact here
    | cons earlier before =>
        obtain ⟨rfl, rest⟩ := List.cons.inj split
        exact later before event after rest

theorem forall_prefixes_concat {holds : List Event → Prop} :
    (∀ before after, history ++ [last] = before ++ after → holds before) ↔
      (∀ before after, history = before ++ after → holds before) ∧ holds (history ++ [last]) := by
  constructor
  · intro all
    refine ⟨?_, all (history ++ [last]) [] (List.append_nil _).symm⟩
    rintro before after rfl
    exact all before (after ++ [last]) (List.append_assoc ..)
  · rintro ⟨all, here⟩ before after split
    rcases List.eq_nil_or_concat after with rfl | ⟨front, final, rfl⟩
    · rw [List.append_nil] at split
      exact split ▸ here
    · rw [List.concat_eq_append, ← List.append_assoc] at split
      obtain ⟨rfl, -⟩ := List.append_inj' split rfl
      exact all before front rfl

/-- Something has begun in the history and has not ended since. -/
def Lasting (begins ends : Event → Prop) (history : List Event) : Prop :=
  ∃ before event after, history = before ++ event :: after ∧ begins event ∧
    ∀ other ∈ after, ¬ ends other

theorem lasting_concat {begins ends : Event → Prop} : Lasting begins ends (history ++ [last]) ↔
    begins last ∨ Lasting begins ends history ∧ ¬ ends last := by
  constructor
  · rintro ⟨before, event, after, split, begun, lasts⟩
    rcases concat_eq_append_cons.mp split with ⟨-, rfl, -⟩ | ⟨front, earlier, rfl⟩
    · exact Or.inl begun
    · refine Or.inr ⟨⟨before, event, front, earlier, begun, fun other member => ?_⟩, ?_⟩
      · exact lasts other (List.mem_append_left _ member)
      · exact lasts last (List.mem_append_right _ (List.mem_singleton_self last))
  · rintro (begun | ⟨⟨before, event, front, rfl, begun, lasts⟩, stays⟩)
    · exact ⟨history, last, [], rfl, begun, fun other none => absurd none List.not_mem_nil⟩
    · refine ⟨before, event, front ++ [last], ?_, begun, fun other member => ?_⟩
      · rw [List.append_assoc, List.cons_append]
      · rcases List.mem_append.mp member with old | new
        · exact lasts other old
        · rwa [List.mem_singleton.mp new]

variable (invariant : List Event → Prop) {good : List Event → Prop} {legal : Event → Prop}
  {condition : List Event → Event → Prop}

/-- The invariant holds after a run whose events meet the condition. -/
theorem invariant_of_condition (start : invariant [])
    (next : ∀ before event, invariant before → legal event → condition before event →
      invariant (before ++ [event]))
    (allLegal : ∀ event ∈ history, legal event)
    (conditions : ∀ before event after, history = before ++ event :: after →
      condition before event) : invariant history := by
  induction history using List.reverseRecOn with
  | nil => exact start
  | append_singleton history last ih =>
      obtain ⟨earlier, here⟩ := forall_splits_concat.mp conditions
      exact next history last
        (ih (fun event member => allLegal event (List.mem_append_left _ member)) earlier)
        (allLegal last (by simp)) here

/-- All states of a run are good exactly when all its events meet the condition. -/
theorem forall_good_iff (start : invariant []) (isGood : ∀ before, invariant before → good before)
    (next : ∀ before event, invariant before → legal event → condition before event →
      invariant (before ++ [event]))
    (needed : ∀ before event, invariant before → legal event → good (before ++ [event]) →
      condition before event)
    (allLegal : ∀ event ∈ history, legal event) :
    (∀ before after, history = before ++ after → good before) ↔
      ∀ before event after, history = before ++ event :: after → condition before event := by
  induction history using List.reverseRecOn with
  | nil =>
      refine iff_of_true (fun before after split => ?_) fun before event after split => ?_
      · obtain ⟨rfl, -⟩ := List.append_eq_nil_iff.mp split.symm
        exact isGood [] start
      · exact absurd split.symm
          (List.append_ne_nil_of_right_ne_nil before (List.cons_ne_nil _ after))
  | append_singleton history last ih =>
      have legalBefore : ∀ event ∈ history, legal event :=
        fun event member => allLegal event (List.mem_append_left _ member)
      have legalLast : legal last := allLegal last (by simp)
      rw [forall_prefixes_concat, forall_splits_concat, ih legalBefore]
      refine and_congr_right fun conditions => ?_
      have holds := invariant_of_condition invariant start next legalBefore conditions
      exact ⟨needed history last holds legalLast,
        fun here => isGood _ (next history last holds legalLast here)⟩

/-- Of the elements visited, only one does something, and once. -/
theorem foldl_of_single {State Element : Type*} {step : State → Element → State} {one : Element}
    {elements : List Element} {state : State} (steady : State → Prop)
    (others : ∀ state, steady state → ∀ other, other ≠ one → step state other = state)
    (once : ∀ state, steady state →
      steady (step state one) ∧ step (step state one) one = step state one)
    (isSteady : steady state) (visited : one ∉ elements → step state one = state) :
    elements.foldl step state = step state one := by
  induction elements generalizing state with
  | nil => exact (visited List.not_mem_nil).symm
  | cons first elements ih =>
      rw [List.foldl_cons]
      by_cases same : first = one
      · obtain ⟨steadyAfter, again⟩ := once state isSteady
        rw [same, ih steadyAfter fun _ => again, again]
      · rw [others state isSteady first same]
        refine ih isSteady fun notVisited => visited fun member => ?_
        exact notVisited ((List.mem_cons.mp member).resolve_left (Ne.symm same))

end RunConditions

end LuaServer
