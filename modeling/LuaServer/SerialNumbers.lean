import Mathlib.Data.BitVec
import Mathlib.Data.Int.Order.Basic
import Mathlib.Tactic.Ring

/-!
# Serial numbers

Numbers of a fixed width are counted up for ever and start again at zero.  Two of them are
compared by their difference, as long as they are less than half of the range apart.
-/

namespace LuaServer

namespace SerialNumbers

variable {w : Nat}

/-- How far a number is ahead of another one. -/
def distance (later earlier : BitVec w) : Int := (later - earlier).toInt

/-- How often a number must be counted up to get to another one. -/
def offset (base number : BitVec w) : Nat := (number - base).toNat

theorem distance_ofNat {a b : Nat} (lower : -2 ^ w ≤ 2 * ((a : Int) - b))
    (upper : 2 * ((a : Int) - b) < 2 ^ w) :
    distance (BitVec.ofNat w a) (BitVec.ofNat w b) = a - b := by
  have powers : ((2 ^ w : Nat) : Int) = 2 ^ w := by push_cast; rfl
  rw [distance, BitVec.toInt_sub, BitVec.toInt_ofNat', BitVec.toInt_ofNat', Int.bmod_sub_bmod,
    Int.sub_bmod_bmod]
  apply Int.bmod_eq_of_le_mul_two
  · rw [powers, mul_comm]
    exact lower
  · rw [powers, mul_comm]
    exact upper

theorem ofNat_inj {a b : Nat} (small : a < 2 ^ w) (small' : b < 2 ^ w) :
    BitVec.ofNat w a = BitVec.ofNat w b ↔ a = b := by
  constructor
  · intro same
    have values := congrArg BitVec.toNat same
    rwa [BitVec.toNat_ofNat, BitVec.toNat_ofNat, Nat.mod_eq_of_lt small,
      Nat.mod_eq_of_lt small'] at values
  · exact congrArg _

theorem ofNat_succ (a : Nat) : BitVec.ofNat w (a + 1) = BitVec.ofNat w a + 1 :=
  BitVec.ofNat_add a 1

section Offsets

variable {base number other : BitVec w}

theorem sub_eq_ofNat_offset : number - base = BitVec.ofNat w (offset base number) := by
  rw [offset, BitVec.ofNat_toNat, BitVec.setWidth_eq]

/-- Numbers in the half of the range behind a base are compared like their offsets. -/
theorem distance_eq_offset_sub (near : 2 * offset base number < 2 ^ w)
    (near' : 2 * offset base other < 2 ^ w) :
    distance number other = offset base number - offset base other := by
  have difference : number - other = (number - base) - (other - base) := by
    exact (sub_sub_sub_cancel_right number other base).symm
  have powers : ((2 ^ w : Nat) : Int) = 2 ^ w := by push_cast; rfl
  have near₂ := distance_ofNat (w := w) (a := offset base number) (b := offset base other)
    (by omega) (by omega)
  rwa [distance, ← sub_eq_ofNat_offset, ← sub_eq_ofNat_offset, ← difference] at near₂

theorem offset_lt : offset base number < 2 ^ w := (number - base).isLt

@[simp]
theorem offset_self : offset base base = 0 := by
  rw [offset, sub_self]
  rfl

theorem offset_inj : offset base number = offset base other ↔ number = other := by
  constructor
  · intro same
    exact sub_left_injective (BitVec.eq_of_toNat_eq same)
  · exact congrArg _

/-- Counting on from a number that lies on the way. -/
theorem offset_of_le (le : offset base other ≤ offset base number) :
    offset other number = offset base number - offset base other := by
  have difference : number - other = (number - base) - (other - base) :=
    (sub_sub_sub_cancel_right number other base).symm
  have small : offset base number < 2 ^ w := offset_lt
  rw [offset, difference, BitVec.toNat_sub_of_le (BitVec.le_def.mpr le)]
  rfl

theorem offset_add_one_right (small : offset base number + 1 < 2 ^ w) :
    offset base (number + 1) = offset base number + 1 := by
  have one : (1 : BitVec w).toNat = 1 := by
    rw [show (1 : BitVec w) = BitVec.ofNat w 1 from rfl, BitVec.toNat_ofNat,
      Nat.mod_eq_of_lt (by omega)]
  rw [offset, add_sub_right_comm, BitVec.toNat_add_of_lt (by rw [one]; exact small), one]
  rfl

theorem offset_add_one_left (ahead : 0 < offset base number) :
    offset (base + 1) number = offset base number - 1 := by
  have wide : offset base number < 2 ^ w := offset_lt
  have next : offset base (base + 1) = 1 := by
    rw [offset_add_one_right (by rw [offset_self]; omega), offset_self]
  rw [@offset_of_le w base _ _ (by rw [next]; exact ahead), next]

/-- A number that is not behind a base, but behind the end of a window that starts there,
lies in the window. -/
theorem offset_lt_of_window {size : BitVec w} (ahead : 0 ≤ distance number base)
    (inside : distance number (base + size) < 0) :
    offset base number < size.toNat ∧ 2 * offset base number < 2 ^ w := by
  have low : 2 * offset base number < 2 ^ w := by
    rw [distance, BitVec.toInt_eq_toNat_cond] at ahead
    have small : offset base number < 2 ^ w := offset_lt
    rw [offset] at small ⊢
    split at ahead <;> omega
  refine ⟨?_, low⟩
  by_contra beyond
  have le : size ≤ number - base := BitVec.le_def.mpr (not_lt.mp beyond)
  rw [distance, ← sub_sub, BitVec.toInt_eq_toNat_of_lt] at inside
  · omega
  · rw [BitVec.toNat_sub_of_le le]
    rw [offset] at low
    omega

end Offsets

end SerialNumbers

end LuaServer
