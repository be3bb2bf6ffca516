import Mathlib.Data.Finset.Basic
import Mathlib.Data.Finset.SDiff
import Mathlib.Data.List.Pairwise
import Mathlib.Data.List.TakeWhile
import Mathlib.Order.Defs.LinearOrder

/-!
# Differences of sorted lists

The owner of a set follows a sorted list that changes from time to time.  It
is told the differences in both directions, which take its copy from the old
list to the new one and mention no element in vain.
-/

namespace LuaServer

namespace SortedDifferences

variable {Element : Type*} [LinearOrder Element]

/-- `std::set_difference` of sorted ranges: what is smaller in the second range
is passed over, and equal elements leave both ranges. -/
def setDifference : List Element → List Element → List Element
  | [], _ => []
  | first :: firsts, seconds =>
      match seconds.dropWhile fun second => second < first with
      | [] => first :: firsts
      | second :: rest =>
          if first < second then first :: setDifference firsts (second :: rest)
          else setDifference firsts rest

variable {firsts seconds : List Element} {element : Element}

theorem setDifference_sublist (firsts seconds : List Element) :
    (setDifference firsts seconds).Sublist firsts := by
  induction firsts generalizing seconds with
  | nil => exact List.Sublist.refl []
  | cons first firsts ih =>
      rw [setDifference]
      split
      · exact List.Sublist.refl _
      · split
        · exact (ih _).cons_cons first
        · exact (ih _).cons first

/-- Passing over smaller elements loses nothing that is not smaller. -/
theorem mem_dropWhile_iff {first : Element} (notSmaller : first ≤ element) :
    (element ∈ seconds.dropWhile fun second => second < first) ↔ element ∈ seconds := by
  have split := List.takeWhile_append_dropWhile (p := fun second => second < first)
    (l := seconds)
  constructor
  · exact fun member => (List.dropWhile_sublist _).subset member
  · intro member
    rw [← split] at member
    refine (List.mem_append.mp member).resolve_left fun small => ?_
    have less : element < first := by simpa using List.mem_takeWhile_imp small
    exact lt_irrefl _ (less.trans_le notSmaller)

/-- The elements of the first list that are not in the second one. -/
theorem mem_setDifference (firstsSorted : firsts.Pairwise (· < ·))
    (secondsSorted : seconds.Pairwise (· < ·)) :
    element ∈ setDifference firsts seconds ↔ element ∈ firsts ∧ element ∉ seconds := by
  induction firsts generalizing seconds with
  | nil => simp [setDifference]
  | cons first firsts ih =>
      obtain ⟨firstLess, firstsSorted⟩ := List.pairwise_cons.mp firstsSorted
      have restSorted := secondsSorted.sublist
        (List.dropWhile_sublist fun second => second < first)
      have stops := List.head?_dropWhile_not (fun second => second < first) seconds
      have kept : element ∈ first :: firsts →
          ((element ∈ seconds.dropWhile fun second => second < first) ↔ element ∈ seconds) := by
        intro member
        apply mem_dropWhile_iff
        rcases List.mem_cons.mp member with rfl | later
        · exact le_rfl
        · exact (firstLess element later).le
      have reduced : element ∈ first :: firsts ∧ element ∉ seconds ↔ element ∈ first :: firsts ∧
          element ∉ seconds.dropWhile fun second => second < first :=
        and_congr_right fun member => not_congr (kept member).symm
      rw [setDifference, reduced]
      cases behind : seconds.dropWhile fun second => second < first with
      | nil => simp
      | cons second rest =>
          rw [behind] at restSorted stops
          have notLess : first ≤ second := by simpa using stops
          simp only
          split
          next less =>
            have firstMissing : first ∉ second :: rest := by
              intro member
              rcases List.mem_cons.mp member with rfl | later
              · exact lt_irrefl _ less
              · exact lt_asymm less ((List.pairwise_cons.mp restSorted).1 first later)
            rw [List.mem_cons, List.mem_cons, ih firstsSorted restSorted, or_and_right]
            refine or_congr_left ⟨?_, And.left⟩
            rintro rfl
            exact ⟨rfl, firstMissing⟩
          next notGreater =>
            -- The heads are equal and leave both lists.
            obtain rfl : first = second := le_antisymm notLess (not_lt.mp notGreater)
            rw [ih firstsSorted (List.pairwise_cons.mp restSorted).2, List.mem_cons, List.mem_cons,
              not_or]
            constructor
            · rintro ⟨member, missing⟩
              exact ⟨Or.inr member, (firstLess element member).ne', missing⟩
            · rintro ⟨member, differs, missing⟩
              exact ⟨member.resolve_left differs, missing⟩

/-- A copy of a set after its owner is told of a change. -/
def follow (held : Finset Element) (adds dels : List Element) : Finset Element :=
  (held \ dels.toFinset) ∪ adds.toFinset

/-- The differences between two sorted lists take a copy of the one to the other. -/
theorem follow_setDifference {old new : List Element} (oldSorted : old.Pairwise (· < ·))
    (newSorted : new.Pairwise (· < ·)) :
    follow old.toFinset (setDifference new old) (setDifference old new) = new.toFinset := by
  ext element
  simp only [follow, Finset.mem_union, Finset.mem_sdiff, List.mem_toFinset,
    mem_setDifference oldSorted newSorted, mem_setDifference newSorted oldSorted]
  tauto

theorem toFinset_eq_iff {old new : List Element} (oldSorted : old.Pairwise (· < ·))
    (newSorted : new.Pairwise (· < ·)) :
    old.toFinset = new.toFinset ↔ setDifference new old = [] ∧ setDifference old new = [] := by
  simp only [List.eq_nil_iff_forall_not_mem, mem_setDifference oldSorted newSorted,
    mem_setDifference newSorted oldSorted, Finset.ext_iff, List.mem_toFinset]
  constructor
  · intro same
    exact ⟨fun element member => member.2 ((same element).mpr member.1),
      fun element member => member.2 ((same element).mp member.1)⟩
  · rintro ⟨noAdds, noDels⟩ element
    exact ⟨fun inOld => by_contra fun missing => noDels element ⟨inOld, missing⟩,
      fun inNew => by_contra fun missing => noAdds element ⟨inNew, missing⟩⟩

end SortedDifferences

end LuaServer
