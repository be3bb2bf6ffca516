import LuaServer.LittleEndianBytes

/-!
# Bytes in memory

A memory has a byte at every address.  What is read from a range of addresses does not
depend on what is written to a range apart from it, and is what has been written to the
range itself.
-/

namespace LuaServer

/-- The byte at each address. -/
abbrev Memory := Nat → Byte

namespace Memory

/-- The bytes of a range. -/
def read (memory : Memory) (address length : Nat) : ByteString :=
  (List.range length).map fun offset => memory (address + offset)

/-- Put bytes into the range that begins at the address. -/
def write (memory : Memory) (address : Nat) (bytes : ByteString) : Memory :=
  fun here => if here < address then memory here
    else (bytes[here - address]?).getD (memory here)

/-- Two ranges have no address in common. -/
def Apart (first firstLength second secondLength : Nat) : Prop :=
  first + firstLength ≤ second ∨ second + secondLength ≤ first

section Rules

variable {memory other : Memory} {address length : Nat} {bytes : ByteString}

@[simp]
theorem length_read : (memory.read address length).length = length := by
  simp [read]

theorem read_congr
    (same : ∀ offset < length, memory (address + offset) = other (address + offset)) :
    memory.read address length = other.read address length := by
  apply List.map_congr_left
  intro offset member
  exact same offset (List.mem_range.mp member)

theorem read_write_apart {target : Nat} (apart : Apart address length target bytes.length) :
    (memory.write target bytes).read address length = memory.read address length := by
  apply read_congr
  intro offset inside
  unfold write
  split
  · rfl
  · rw [List.getElem?_eq_none, Option.getD_none]
    rcases apart with before | behind <;> omega

theorem read_write_self : (memory.write address bytes).read address bytes.length = bytes := by
  apply List.ext_getElem
  · simp
  · intro offset inRead inBytes
    simp only [read, List.getElem_map, List.getElem_range, write]
    rw [if_neg (by omega), Nat.add_sub_cancel_left, List.getElem?_eq_getElem inBytes]
    rfl

theorem read_part {start count : Nat} (inside : start + count ≤ length) :
    memory.read (address + start) count =
      ((memory.read address length).drop start).take count := by
  apply List.ext_getElem
  · simp
    omega
  · intro offset inRead inPart
    simp [read, Nat.add_assoc]

end Rules

end Memory

end LuaServer
