import Reprise.Parser.Primitive

/-!
# Elements as integers

A character of narrow text is a byte, and as an integer it is negative from the byte 0x80 on. No test of the
parsers looks at such characters, so there it may be told by its byte. Where elements of two kinds are compared,
the integers that stand for them may wrap: a negative character equals a large number of 32 bits. It equals no
byte and no code point, since none of them is so large.
-/

namespace Reprise

namespace Narrow

/-- The value of a character is that of its byte, less 256 from the byte 0x80 on. -/
theorem value_eq (c : Narrow) :
    c.value = if c.byte.toNat < 0x80 then (c.byte.toNat : Int) else c.byte.toNat - 0x100 := by
  have hbits : c.byte.toInt8.toBitVec.toNat = c.byte.toNat := rfl
  rw [value, Int8.toInt, BitVec.toInt_eq_toNat_cond, hbits]
  split <;> split <;> omega

theorem toNat_toChar (c : Narrow) : c.toChar.toNat = c.byte.toNat := by
  have hvalid : c.byte.toNat.isValidChar := .inl (by have h := c.byte.toNat_lt; omega)
  rw [toChar, Char.ofNat, dif_pos hvalid]
  rfl

end Narrow

namespace Parser

/-- Digits and letters are below 0x80, so that it makes no difference whether characters are signed. -/
theorem isDigit_iff_value (c : Narrow) : isDigit c = true ↔ 48 ≤ c.value ∧ c.value ≤ 57 := by
  have hc := c.byte.toNat_lt
  have hnumber : Element.number c = c.byte.toNat := rfl
  rw [isDigit, hnumber, Narrow.value_eq, Bool.and_eq_true, decide_eq_true_iff, decide_eq_true_iff]
  split <;> omega

theorem isLetter_iff_value (c : Narrow) :
    isLetter c = true ↔ (65 ≤ c.value ∧ c.value ≤ 90) ∨ (97 ≤ c.value ∧ c.value ≤ 122) := by
  have hc := c.byte.toNat_lt
  have hnumber : Element.number c = c.byte.toNat := rfl
  simp only [isLetter, hnumber, Narrow.value_eq, Bool.or_eq_true, Bool.and_eq_true, decide_eq_true_iff]
  split <;> omega

end Parser

namespace Element

variable {τ ρ : Type} [Element τ] [Element ρ] {low : Int}

/-- The integers that stand for the elements of a kind are among the `0x100000000` integers from `low` on. -/
def Within (τ : Type) [Element τ] (low : Int) : Prop := ∀ e : τ, low ≤ value e ∧ value e < low + 0x100000000

end Element

end Reprise
