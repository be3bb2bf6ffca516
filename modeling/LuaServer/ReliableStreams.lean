import Mathlib.Data.Set.Insert
import Mathlib.Logic.Relation
import Mathlib.Order.Interval.Set.Basic
import Mathlib.Tactic.Common

/-!
# Reliable streams

A sender numbers the items it is given and keeps each of them until it knows that the
receiver has it.  The receiver gets them in any order, any number of times, and takes them
in the order of their numbers.  Whatever either side does, the receiver takes what the
sender was given, and nothing that the sender has let go is missing.
-/

namespace LuaServer

namespace ReliableStreams

variable {Item : Type*}

/-- What the sender has been given, how much of it has been sent and what it keeps, by
number; and what the receiver has got and how much of it has been taken. -/
structure State (Item : Type*) where
  items : List Item
  sent : Nat
  kept : Set Nat
  got : Set Nat
  taken : Nat

/-- Nothing has been given. -/
def State.start : State Item := ⟨[], 0, ∅, ∅, 0⟩

/-- What either side may do. -/
inductive Step (a : State Item) : State Item → Prop
  | give (item : Item) : Step a { a with items := a.items ++ [item] }
  | send (more : a.sent < a.items.length) :
      Step a { a with sent := a.sent + 1, kept := insert a.sent a.kept }
  | get (n : Nat) (sent : n < a.sent) : Step a { a with got := insert n a.got }
  | take (next : a.taken ∈ a.got) : Step a { a with taken := a.taken + 1 }
  | release (n : Nat) (got : n ∈ a.got) : Step a { a with kept := a.kept \ {n} }

/-- Any number of steps. -/
abbrev Moves : State Item → State Item → Prop := Relation.ReflTransGen Step

/-- What is true of the numbers in every state. -/
structure Sound (a : State Item) : Prop where
  sent_le : a.sent ≤ a.items.length
  kept_lt : ∀ n ∈ a.kept, n < a.sent
  got_lt : ∀ n ∈ a.got, n < a.sent
  safe : ∀ n < a.sent, n ∈ a.kept ∨ n ∈ a.got
  taken : ∀ n < a.taken, n ∈ a.got

/-- What has become true stays so. -/
structure Grows (a b : State Item) : Prop where
  items : a.items <+: b.items
  sent : a.sent ≤ b.sent
  got : a.got ⊆ b.got
  taken : a.taken ≤ b.taken

theorem sound_start : Sound (State.start : State Item) where
  sent_le := le_rfl
  kept_lt _ member := absurd member (Set.notMem_empty _)
  got_lt _ member := absurd member (Set.notMem_empty _)
  safe _ small := absurd small (Nat.not_lt_zero _)
  taken _ small := absurd small (Nat.not_lt_zero _)

section Steps

variable {a b c : State Item}

theorem Grows.refl : Grows a a := ⟨List.prefix_rfl, le_rfl, subset_rfl, le_rfl⟩

theorem Grows.trans (first : Grows a b) (second : Grows b c) : Grows a c where
  items := first.items.trans second.items
  sent := first.sent.trans second.sent
  got := first.got.trans second.got
  taken := first.taken.trans second.taken

theorem Step.grows (step : Step a b) : Grows a b := by
  cases step with
  | give item => exact ⟨List.prefix_append .., le_rfl, subset_rfl, le_rfl⟩
  | send more => exact ⟨List.prefix_rfl, Nat.le_succ _, subset_rfl, le_rfl⟩
  | get n sent => exact ⟨List.prefix_rfl, le_rfl, Set.subset_insert .., le_rfl⟩
  | take next => exact ⟨List.prefix_rfl, le_rfl, subset_rfl, Nat.le_succ _⟩
  | release n got => exact ⟨List.prefix_rfl, le_rfl, subset_rfl, le_rfl⟩

theorem Step.sound (step : Step a b) (sound : Sound a) : Sound b := by
  cases step with
  | give item =>
      exact { sound with
        sent_le := sound.sent_le.trans (by rw [List.length_append]; exact Nat.le_add_right ..) }
  | send more =>
      exact {
        sent_le := more
        kept_lt := by
          rintro n (rfl | kept)
          · exact Nat.lt_succ_self _
          · exact (sound.kept_lt n kept).trans (Nat.lt_succ_self _)
        got_lt := fun n got => (sound.got_lt n got).trans (Nat.lt_succ_self _)
        safe := fun n small => by
          rcases Nat.lt_succ_iff_lt_or_eq.mp small with earlier | rfl
          · exact (sound.safe n earlier).imp_left (Or.inr ·)
          · exact Or.inl (Or.inl rfl)
        taken := sound.taken }
  | get n sent =>
      exact { sound with
        got_lt := by
          rintro m (rfl | got)
          · exact sent
          · exact sound.got_lt m got
        safe := fun m small => (sound.safe m small).imp_right (Or.inr ·)
        taken := fun m small => Or.inr (sound.taken m small) }
  | take next =>
      exact { sound with
        taken := fun n small => by
          rcases Nat.lt_succ_iff_lt_or_eq.mp small with earlier | rfl
          · exact sound.taken n earlier
          · exact next }
  | release n got =>
      exact { sound with
        kept_lt := fun m kept => sound.kept_lt m kept.1
        safe := fun m small => by
          rcases sound.safe m small with kept | has
          · by_cases same : m = n
            · exact Or.inr (same ▸ got)
            · exact Or.inl ⟨kept, same⟩
          · exact Or.inr has }

theorem Moves.sound (moves : Moves a b) (sound : Sound a) : Sound b := by
  induction moves with
  | refl => exact sound
  | tail _ step ih => exact step.sound ih

theorem Moves.grows (moves : Moves a b) : Grows a b := by
  induction moves with
  | refl => exact Grows.refl
  | tail _ step ih => exact ih.trans step.grows

/-- What has a number keeps its item. -/
theorem Grows.getElem? (grows : Grows a b) {n : Nat} {item : Item} (at_ : a.items[n]? = some item) :
    b.items[n]? = some item := by
  obtain ⟨more, eq⟩ := grows.items
  rw [← eq, List.getElem?_append_left (List.getElem?_eq_some_iff.mp at_).1, at_]

theorem Sound.taken_le (sound : Sound a) : a.taken ≤ a.sent := by
  by_contra beyond
  exact absurd (sound.got_lt _ (sound.taken a.sent (not_le.mp beyond))) (lt_irrefl _)

/-- Many items are given one after the other. -/
theorem moves_give (items : List Item) : Moves a { a with items := a.items ++ items } := by
  induction items generalizing a with
  | nil => rw [List.append_nil]
  | cons item items ih =>
      have rest := ih (a := { a with items := a.items ++ [item] })
      rw [List.append_assoc] at rest
      exact .head (.give item) rest

/-- What the receiver has got is let go. -/
theorem moves_release {numbers : List Nat} (got : ∀ n ∈ numbers, n ∈ a.got) :
    Moves a { a with kept := a.kept \ {n | n ∈ numbers} } := by
  induction numbers generalizing a with
  | nil => simpa using Relation.ReflTransGen.refl
  | cons n numbers ih =>
      have rest := ih (a := { a with kept := a.kept \ {n} }) fun m member =>
        got m (List.mem_cons_of_mem n member)
      have same : (a.kept \ {n}) \ {m | m ∈ numbers} = a.kept \ {m | m ∈ n :: numbers} := by
        ext m
        simp only [Set.mem_sdiff, Set.mem_singleton_iff, Set.mem_ofPred_eq, List.mem_cons]
        tauto
      rw [same] at rest
      exact .head (.release n (got n List.mem_cons_self)) rest

end Steps

end ReliableStreams

end LuaServer
