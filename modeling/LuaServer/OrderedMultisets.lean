import Mathlib.Data.List.Basic
import Mathlib.Order.Lattice
import Mathlib.Tactic.Common

/-!
# Multisets ordered by a key

A C++ `multiset` keeps equivalent elements in insertion order: an element is
inserted behind every element whose key is not larger.  The smallest element
that was inserted first is the head of the list.
-/

namespace LuaServer

namespace OrderedMultisets

variable {Element Key : Type*} [LinearOrder Key]

/-- Insert behind every element whose key is not larger. -/
def insertAfter (key : Element → Key) (element : Element) :
    List Element → List Element
  | [] => [element]
  | head :: tail =>
      if key element < key head then element :: head :: tail
      else head :: insertAfter key element tail

variable {key : Element → Key} {element other : Element}
  {elements : List Element}

@[simp]
theorem mem_insertAfter :
    other ∈ insertAfter key element elements ↔
      other = element ∨ other ∈ elements := by
  induction elements with
  | nil => simp [insertAfter]
  | cons head tail ih =>
      simp only [insertAfter]
      split
      · simp
      · simp only [List.mem_cons, ih]
        tauto

@[simp]
theorem length_insertAfter :
    (insertAfter key element elements).length = elements.length + 1 := by
  induction elements with
  | nil => rfl
  | cons head tail ih =>
      simp only [insertAfter]
      split <;> simp [ih]

theorem perm_insertAfter :
    (insertAfter key element elements).Perm (element :: elements) := by
  induction elements with
  | nil => exact List.Perm.refl _
  | cons head tail ih =>
      rw [insertAfter]
      split
      · exact List.Perm.refl _
      · exact (ih.cons head).trans (List.Perm.swap element head tail)

end OrderedMultisets

end LuaServer
