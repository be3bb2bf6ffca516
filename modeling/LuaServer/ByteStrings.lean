import Mathlib.Data.List.Lex
import Mathlib.Order.Fin.Basic

/-!
# Byte strings

Strings of C++ and Lua and the keys of leveldb are sequences of bytes.  They
are compared byte by byte, a proper prefix being the smaller one, which is the
lexicographic order of the lists of their bytes.
-/

namespace LuaServer

abbrev Byte := Fin 256

abbrev ByteString := List Byte

-- Literals and comparisons of byte strings find these two at once.
instance instNeZeroByte : @NeZero Nat Zero.ofOfNat0 256 :=
  ⟨Nat.succ_ne_zero 255⟩

instance instLawfulBEqByteString : LawfulBEq ByteString :=
  inferInstance

namespace ByteString

theorem nil_le (str : ByteString) : [] ≤ str :=
  not_lt.mp (List.not_lt_nil str)

theorem cons_le_cons {first second : Byte} {left right : ByteString} :
    first :: left ≤ second :: right ↔ first < second ∨ first = second ∧ left ≤ right := by
  rw [← not_lt, List.cons_lt_cons_iff, ← not_lt]
  have order := lt_trichotomy first second
  constructor
  · intro none
    rcases order with less | rfl | greater
    · exact Or.inl less
    · exact Or.inr ⟨rfl, fun less => none (Or.inr ⟨rfl, less⟩)⟩
    · exact absurd (Or.inl greater) none
  · rintro (less | ⟨rfl, notLess⟩) (greater | ⟨same, less'⟩)
    · exact less.asymm greater
    · exact less.ne same.symm
    · exact lt_irrefl _ greater
    · exact notLess less'

/-- What lies between two strings with the same beginning begins so, too. -/
theorem exists_append_of_between {front first last middle : ByteString}
    (lower : front ++ first ≤ middle) (upper : middle ≤ front ++ last) :
    ∃ rest, middle = front ++ rest := by
  induction front generalizing middle with
  | nil => exact ⟨middle, rfl⟩
  | cons byte front ih =>
      cases middle with
      | nil => exact absurd lower (not_le.mpr (List.nil_lt_cons _ _))
      | cons head tail =>
          rw [List.cons_append, cons_le_cons] at lower upper
          rcases lower with less | ⟨rfl, lower⟩
          · rcases upper with greater | ⟨rfl, -⟩
            · exact absurd greater less.asymm
            · exact absurd less (lt_irrefl _)
          · rcases upper with greater | ⟨-, upper⟩
            · exact absurd greater (lt_irrefl _)
            · obtain ⟨rest, rfl⟩ := ih lower upper
              exact ⟨rest, rfl⟩

end ByteString

end LuaServer
