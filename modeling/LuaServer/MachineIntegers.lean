import Mathlib.Data.Int.Order.Basic
import Mathlib.Tactic.Ring
import Mathlib.Tactic.NormNum

/-!
# Machine integers

Assigning to a fixed-width integer of C++ keeps the value modulo a power of
two.  Values are kept as mathematical integers here, and every assignment
that may leave the range of its type goes through one of these conversions.
-/

namespace LuaServer

namespace MachineIntegers

/-- Two's complement value of the low `bits` bits. -/
def toSigned (bits : Nat) (value : Int) : Int :=
  value.bmod (2 ^ bits)

/-- Value of the low `bits` bits without a sign. -/
def toUnsigned (bits : Nat) (value : Int) : Int :=
  value % 2 ^ bits

abbrev toInt8 : Int → Int := toSigned 8
abbrev toInt16 : Int → Int := toSigned 16
abbrev toInt32 : Int → Int := toSigned 32
abbrev toInt64 : Int → Int := toSigned 64
abbrev toSizeT : Int → Int := toUnsigned 64

theorem toInt16_of_range {value : Int} (lower : -32768 ≤ value)
    (upper : value < 32768) : toInt16 value = value := by
  apply Int.bmod_eq_of_le <;> norm_num <;> omega

theorem toInt32_of_range {value : Int} (lower : -2147483648 ≤ value)
    (upper : value < 2147483648) : toInt32 value = value := by
  apply Int.bmod_eq_of_le <;> norm_num <;> omega

/-- The upper half of the unsigned numbers becomes negative. -/
theorem toInt32_of_large {value : Int} (lower : 2147483648 ≤ value)
    (upper : value < 4294967296) : toInt32 value = value - 4294967296 := by
  have same : value % ((2 ^ 32 : Nat) : Int) = value := by
    apply Int.emod_eq_of_lt
    · omega
    · norm_num
      exact upper
  rw [toInt32, toSigned, Int.bmod_neg _ _ (by rw [same]; norm_num; exact lower), same]
  norm_num

theorem toInt32_toInt32_add (a b : Int) : toInt32 (toInt32 a + b) = toInt32 (a + b) := by
  simp only [toInt32, toSigned, Int.bmod_add_bmod]

theorem toInt16_range (value : Int) :
    -32768 ≤ toInt16 value ∧ toInt16 value < 32768 := by
  have lower := Int.le_bmod (x := value) (m := 2 ^ 16) (by norm_num)
  have upper := Int.bmod_lt (x := value) (m := 2 ^ 16) (by norm_num)
  norm_num at lower upper
  exact ⟨lower, upper⟩

theorem toInt32_le {value : Int} (nonneg : 0 ≤ value) : toInt32 value ≤ value := by
  have low := Int.emod_nonneg value (show (4294967296 : Int) ≠ 0 by norm_num)
  simp only [toInt32, toSigned, Int.bmod]
  norm_num
  split <;> omega

end MachineIntegers

end LuaServer
