import LuaServer.ByteStrings
import LuaServer.MachineIntegers

/-!
# Little endian bytes

A number is stored in a fixed number of bytes, the lowest byte first.  Reading
the bytes back gives the number modulo the next power of 256, which is the
number itself when it fits.
-/

namespace LuaServer

namespace LittleEndian

open MachineIntegers

/-- The low `count` bytes of a number. -/
def ofNat : Nat → Nat → ByteString
  | 0, _ => []
  | count + 1, value => Fin.ofNat 256 value :: ofNat count (value / 256)

/-- The number stored in the bytes. -/
def toNat : ByteString → Nat
  | [] => 0
  | byte :: bytes => byte.val + 256 * toNat bytes

/-- The low `count` bytes of an integer in two's complement. -/
def ofInt (count : Nat) (value : Int) : ByteString :=
  ofNat count (toUnsigned (8 * count) value).toNat

/-- The integer stored in the bytes in two's complement. -/
def toInt (bytes : ByteString) : Int :=
  toSigned (8 * bytes.length) (toNat bytes)

/-- The first `count` bytes of a string and the others, when it has as many. -/
def splitBytes (count : Nat) (str : ByteString) : Option (ByteString × ByteString) :=
  if count ≤ str.length then some (str.take count, str.drop count) else none

@[simp]
theorem length_ofNat (count value : Nat) : (ofNat count value).length = count := by
  induction count generalizing value with
  | zero => rfl
  | succ count ih => rw [ofNat, List.length_cons, ih]

@[simp]
theorem length_ofInt (count : Nat) (value : Int) : (ofInt count value).length = count :=
  length_ofNat count _

theorem toNat_ofNat (count value : Nat) : toNat (ofNat count value) = value % 256 ^ count := by
  induction count generalizing value with
  | zero => rw [ofNat, toNat, pow_zero, Nat.mod_one]
  | succ count ih =>
      rw [ofNat, toNat, ih, pow_succ', Nat.mod_mul]
      rfl

theorem toNat_ofNat_of_lt {count value : Nat} (fits : value < 256 ^ count) :
    toNat (ofNat count value) = value := by
  rw [toNat_ofNat, Nat.mod_eq_of_lt fits]

theorem toNat_lt (bytes : ByteString) : toNat bytes < 256 ^ bytes.length := by
  induction bytes with
  | nil => exact Nat.one_pos
  | cons byte bytes ih =>
      have small := byte.isLt
      rw [toNat, List.length_cons, pow_succ]
      omega

theorem toInt_ofInt {count : Nat} {value : Int}
    (lower : -2 ^ (8 * count) ≤ 2 * value) (upper : 2 * value < 2 ^ (8 * count)) :
    toInt (ofInt count value) = value := by
  have positive : (0 : Int) < 2 ^ (8 * count) := by positivity
  have powers : ((256 ^ count : Nat) : Int) = 2 ^ (8 * count) := by
    rw [pow_mul]
    norm_num
  have nonneg : 0 ≤ toUnsigned (8 * count) value := Int.emod_nonneg _ positive.ne'
  have below : toUnsigned (8 * count) value < 2 ^ (8 * count) := Int.emod_lt_of_pos _ positive
  have fits : (toUnsigned (8 * count) value).toNat < 256 ^ count := by
    rw [← Int.ofNat_lt, Int.toNat_of_nonneg nonneg, powers]
    exact below
  rw [toInt, length_ofInt, ofInt, toNat_ofNat_of_lt fits, Int.toNat_of_nonneg nonneg]
  simp only [toSigned, toUnsigned]
  have modulus : ((2 ^ (8 * count) : Nat) : Int) = 2 ^ (8 * count) := by push_cast; rfl
  rw [← modulus, Int.emod_bmod]
  apply Int.bmod_eq_of_le_mul_two
  · rw [modulus, mul_comm value]
    exact lower
  · rw [modulus, mul_comm value]
    exact upper

theorem toInt_eight {value : Int} (range : -2 ^ 63 ≤ value ∧ value < 2 ^ 63) :
    toInt (ofInt 8 value) = value := by
  apply toInt_ofInt <;> norm_num <;> omega

theorem toInt_eight_range {bytes : ByteString} (length : bytes.length = 8) :
    -2 ^ 63 ≤ toInt bytes ∧ toInt bytes < 2 ^ 63 := by
  have lower := @Int.le_bmod (toNat bytes) (2 ^ 64) (by norm_num)
  have upper := @Int.bmod_lt (toNat bytes) (2 ^ 64) (by norm_num)
  rw [toInt, length]
  simp only [toSigned]
  norm_num at lower upper ⊢
  omega

theorem splitBytes_append {count : Nat} {front : ByteString} (rest : ByteString)
    (size : front.length = count) : splitBytes count (front ++ rest) = some (front, rest) := by
  subst size
  simp [splitBytes]

end LittleEndian

end LuaServer
