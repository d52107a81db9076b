import Diagram.Text.Blank

/-!
# Classes of characters by code point

Each class of characters is a union of ranges of code points, so that facts about two
classes at once are facts about numbers.
-/

namespace Diagram

theorem isDigit_iff (c : Char) : c.isDigit ↔ 48 ≤ c.toNat ∧ c.toNat ≤ 57 := by
  simp only [Char.isDigit, Bool.and_eq_true, decide_eq_true_eq, ge_iff_le, UInt32.le_iff_toNat_le]
  rfl

theorem isNameStart_iff (c : Char) : isNameStart c ↔
    (65 ≤ c.toNat ∧ c.toNat ≤ 90) ∨ (97 ≤ c.toNat ∧ c.toNat ≤ 122) ∨ c.toNat = 95 := by
  have hu : c = '_' ↔ c.toNat = 95 := by
    constructor
    · rintro rfl; rfl
    · intro h; exact Char.toNat_inj.mp h
  delta isNameStart Char.isAlpha Char.isUpper Char.isLower
  simp only [Bool.or_eq_true, Bool.and_eq_true, decide_eq_true_eq, beq_iff_eq, ge_iff_le,
    UInt32.le_iff_toNat_le, hu]
  exact or_assoc

theorem isNameChar_iff (c : Char) : isNameChar c ↔ isNameStart c ∨ c.isDigit := by
  simp only [isNameChar, isNameStart, Char.isAlphanum, Bool.or_eq_true]
  exact or_right_comm

theorem isHexDigit_iff (c : Char) : isHexDigit c ↔
    c.isDigit ∨ (97 ≤ c.toNat ∧ c.toNat ≤ 102) ∨ (65 ≤ c.toNat ∧ c.toNat ≤ 70) := by
  simp only [isHexDigit, Bool.or_eq_true, Bool.and_eq_true, decide_eq_true_eq, Char.le_def,
    UInt32.le_iff_toNat_le, or_assoc]
  rfl

theorem isBlank_iff (c : Char) : isBlank c ↔
    c.toNat ∈ [0x20, 0x85, 0xA0, 0x1680, 0x2028, 0x2029, 0x202F, 0x205F, 0x3000] ∨
      (9 ≤ c.toNat ∧ c.toNat ≤ 13) ∨ (0x2000 ≤ c.toNat ∧ c.toNat ≤ 0x200A) := by
  simp only [isBlank, Bool.or_eq_true, Bool.and_eq_true, decide_eq_true_eq, beq_iff_eq,
    List.mem_cons, List.not_mem_nil, or_false]
  omega

/-- A character of a name is not white space. -/
theorem not_isBlank_of_isNameChar {c : Char} (h : isNameChar c) : isBlank c = false := by
  rw [isNameChar_iff, isNameStart_iff, isDigit_iff] at h
  rw [Bool.eq_false_iff, ne_eq, isBlank_iff]
  simp only [List.mem_cons, List.not_mem_nil, or_false]
  omega

/-- A hexadecimal digit can continue a name. -/
theorem isNameChar_of_isHexDigit {c : Char} (h : isHexDigit c) : isNameChar c := by
  rw [isHexDigit_iff, isDigit_iff] at h
  rw [isNameChar_iff, isNameStart_iff, isDigit_iff]
  omega

theorem isNameChar_of_isDigit {c : Char} (h : c.isDigit) : isNameChar c :=
  (isNameChar_iff c).mpr (.inr h)

/-- No digit starts a name. -/
theorem not_isDigit_of_isNameStart {c : Char} (h : isNameStart c) : c.isDigit = false := by
  rw [isNameStart_iff] at h
  rw [Bool.eq_false_iff, ne_eq, isDigit_iff]
  omega

/-- A character of a name is none of the given characters. -/
theorem ne_of_isNameChar {c d : Char} (h : isNameChar c) (hd : isNameChar d = false) : c ≠ d := by
  rintro rfl
  rw [h] at hd
  exact Bool.noConfusion hd

end Diagram
