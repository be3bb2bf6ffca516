import Mathlib.Data.List.GetD
import Mathlib.Data.List.Infix
import Mathlib.Data.Nat.ModEq
import Mathlib.Tactic.Common

/-!
# Ring buffers

A queue lies in an array from its front on, and goes on at the start of the array behind
the end of it.  An element is written behind the last one, and either end is taken off
without a change of the array.
-/

namespace LuaServer

namespace RingBuffer

variable {α : Type*} (none_ : α)

/-- The `count` elements from position `front` on. -/
def contents (cells : List α) (front count : Nat) : List α :=
  (List.range count).map fun k => cells.getD ((front + k) % cells.length) none_

variable {none_} {cells : List α} {front count : Nat}

@[simp]
theorem length_contents : (contents none_ cells front count).length = count := by
  simp [contents]

theorem getElem?_contents {k : Nat} (inside : k < count) :
    (contents none_ cells front count)[k]? =
      some (cells.getD ((front + k) % cells.length) none_) := by
  simp [contents, inside]

theorem contents_succ :
    contents none_ cells front (count + 1) =
      contents none_ cells front count ++
        [cells.getD ((front + count) % cells.length) none_] := by
  simp [contents, List.range_succ]

theorem take_contents {n : Nat} (le : n ≤ count) :
    (contents none_ cells front count).take n = contents none_ cells front n := by
  rw [contents, contents, ← List.map_take, List.take_range, Nat.min_eq_left le]

theorem drop_contents {k : Nat} :
    (contents none_ cells front count).drop k =
      contents none_ cells ((front + k) % cells.length) (count - k) := by
  apply List.ext_getElem?
  intro j
  rw [List.getElem?_drop]
  by_cases inside : k + j < count
  · rw [getElem?_contents inside, getElem?_contents (by omega), Nat.mod_add_mod, Nat.add_assoc]
  · rw [List.getElem?_eq_none (by rw [length_contents]; omega),
      List.getElem?_eq_none (by rw [length_contents]; omega)]

/-- The first element is taken off by another front. -/
theorem contents_eq_cons (bound : front < cells.length) :
    contents none_ cells front (count + 1) =
      cells.getD front none_ :: contents none_ cells ((front + 1) % cells.length) count := by
  rw [contents, List.range_succ_eq_map, List.map_cons, List.map_map, Nat.add_zero,
    Nat.mod_eq_of_lt bound, contents]
  congr 1
  refine List.map_congr_left fun k _ => ?_
  rw [Function.comp_apply, Nat.mod_add_mod]
  congr 2
  omega

/-- Two elements of a ring that is not too long lie in different cells. -/
theorem position_ne {size k : Nat} (before : k < count) (room : count < size) :
    (front + k) % size ≠ (front + count) % size := by
  intro same
  have close : Nat.ModEq size k count := Nat.ModEq.add_left_cancel' front same
  have equal := Nat.ModEq.eq_of_lt_of_lt close (by omega) room
  omega

/-- What is written behind the last element is appended. -/
theorem contents_set (room : count < cells.length) (x : α) :
    contents none_ (cells.set ((front + count) % cells.length) x) front (count + 1) =
      contents none_ cells front count ++ [x] := by
  have inside : (front + count) % cells.length < cells.length := Nat.mod_lt _ (by omega)
  rw [contents_succ]
  congr 1
  · refine List.map_congr_left fun k member => ?_
    rw [List.length_set]
    have before : k < count := List.mem_range.mp member
    rw [List.getD_eq_getElem?_getD, List.getD_eq_getElem?_getD,
      List.getElem?_set_ne (position_ne before room).symm]
  · rw [List.length_set, List.getD_eq_getElem?_getD, List.getElem?_set_self inside]
    rfl

/-- A ring that does not reach the end of the array lies there as it is. -/
theorem contents_eq_drop_take (straight : front + count ≤ cells.length) :
    contents none_ cells front count = (cells.drop front).take count := by
  apply List.ext_getElem?
  intro k
  by_cases inside : k < count
  · have bound : front + k < cells.length := by omega
    rw [getElem?_contents inside, List.getElem?_take_of_lt inside, List.getElem?_drop,
      Nat.mod_eq_of_lt bound, List.getElem?_eq_getElem bound, List.getD_eq_getElem _ _ bound]
  · rw [List.getElem?_eq_none (by rw [length_contents]; omega),
      List.getElem?_eq_none (by rw [List.length_take]; omega)]

end RingBuffer

end LuaServer
