import Diagram.Proofs.Characters
import Diagram.Proofs.Unparsing

/-!
# Literals

A value that is written without quotes is a colour, a number or a word.  Which of them a
literal is shows in its first character, so a literal is read as the one it was written as.
-/

namespace Diagram

open Syntax

/-! ## Words -/

/-- A word of the language that is no keyword. -/
def IsWord (w : String) : Prop := TokenKind.identifier.Fits w.toList

instance (w : String) : Decidable (IsWord w) :=
  inferInstanceAs (Decidable (isName w.toList ∧ isKeyword (String.ofList w.toList) = false))

theorem isWord_iff {w : String} : IsWord w ↔ isName w.toList ∧ isKeyword w = false := by
  rw [IsWord, TokenKind.Fits, String.ofList_toList]

/-- Every keyword is a name. -/
theorem isName_of_isKeyword {word : String} (h : isKeyword word) : isName word.toList := by
  rcases isKeyword_iff.mp h with rfl | rfl | hshape
  · decide
  · decide
  · exact isName_of_shapeKeyword (by rwa [String.ofList_toList])

/-- A text whose first character starts no name is no keyword. -/
theorem isKeyword_of_cons {text : String} {c : Char} {cs : List Char}
    (htext : text.toList = c :: cs) (hc : isNameStart c = false) : isKeyword text = false := by
  refine Bool.eq_false_iff.mpr fun hkey => ?_
  have hname := isName_of_isKeyword hkey
  rw [htext, isName, hc] at hname
  cases hname

/-! ## First characters -/

section FirstCharacter

variable {c : Char} {cs : List Char}

theorem fits_color_cons : TokenKind.color.Fits (c :: cs) ↔
    c = '#' ∧ 3 ≤ cs.length ∧ cs.length ≤ 6 ∧ cs.all isHexDigit := by
  constructor
  · rintro ⟨ds, hmin, hmax, hhex, hds⟩
    obtain ⟨rfl, rfl⟩ := List.cons.inj hds
    exact ⟨rfl, hmin, hmax, hhex⟩
  · rintro ⟨rfl, hmin, hmax, hhex⟩
    exact ⟨cs, hmin, hmax, hhex, rfl⟩

/-- A number starts neither as a colour nor as a word. -/
theorem start_of_fits_number (h : TokenKind.number.Fits (c :: cs)) :
    c ≠ '#' ∧ isNameStart c = false := by
  obtain ⟨ds, -, hall, rfl | hcs⟩ := h
  · have hd : c.isDigit := List.all_eq_true.mp hall c List.mem_cons_self
    refine ⟨ne_of_isNameChar (isNameChar_of_isDigit hd) (by decide), ?_⟩
    refine Bool.eq_false_iff.mpr fun hstart => ?_
    rw [not_isDigit_of_isNameStart hstart] at hd
    cases hd
  · obtain ⟨rfl, rfl⟩ := List.cons.inj hcs
    decide

/-- The hash sign starts no name. -/
theorem ne_hash_of_isNameStart (h : isNameStart c) : c ≠ '#' :=
  ne_of_isNameChar (isNameChar_of_isNameStart h) (by decide)

end FirstCharacter

/-! ## Literals -/

/-- The value that a literal is read as. -/
def literalValue (text : String) : StyleValue :=
  match text.toList with
  | '#' :: _ => .color text
  | _ => ((numeral? text).map .number).getD (.name text)

/-- The class of tokens that a value is one of. -/
def Syntax.StyleValue.kind : StyleValue → TokenKind
  | .color _ => .color
  | .number _ => .number
  | .name _ => .identifier

section Literals

variable {text : String}

/-- **The literals are the colours, the numbers and the words.** -/
theorem isLiteral_iff : isLiteral text ↔
    TokenKind.color.Fits text.toList ∨ TokenKind.number.Fits text.toList ∨ IsWord text := by
  rw [isWord_iff, isLiteral]
  cases htext : text.toList with
  | nil => simp [TokenKind.Fits, isName]
  | cons c cs =>
    rw [fits_color_cons]
    cases hkey : isKeyword text with
    | true =>
      -- a keyword starts as a name, a colour and a number do not
      have hstart : isNameStart c := by
        refine Bool.of_not_eq_false fun hc => ?_
        rw [isKeyword_of_cons htext hc] at hkey
        cases hkey
      have hnumber : ¬TokenKind.number.Fits (c :: cs) := by
        intro h
        rw [(start_of_fits_number h).2] at hstart
        cases hstart
      simp [hnumber, ne_hash_of_isNameStart hstart]
    | false =>
      by_cases hsharp : c = '#'
      · subst hsharp
        have hnumber : ¬TokenKind.number.Fits ('#' :: cs) :=
          fun h => (start_of_fits_number h).1 rfl
        have hname : isName ('#' :: cs) = false := rfl
        simp [hnumber, hname, and_assoc]
      · simp [fits_number_cons, isName, hsharp]

/-- A colour is read as a colour. -/
theorem literalValue_of_color (h : TokenKind.color.Fits text.toList) :
    literalValue text = .color text := by
  obtain ⟨ds, -, -, -, htext⟩ := h
  rw [literalValue, htext]
  rfl

/-- A number is read as a number. -/
theorem literalValue_of_number {n : Numeral} (h : numeral? text = some n) :
    literalValue text = .number n := by
  have hfits : TokenKind.number.Fits text.toList := isSome_numeral?_iff.mp (by rw [h]; rfl)
  rw [literalValue]
  split
  · next cs htext => exact absurd rfl (start_of_fits_number (htext ▸ hfits)).1
  · rw [h]
    rfl

/-- A word is read as a name. -/
theorem literalValue_of_isWord (h : IsWord text) : literalValue text = .name text := by
  have hname := (isWord_iff.mp h).1
  have hnumber : numeral? text = none := by
    refine Option.not_isSome_iff_eq_none.mp fun hsome => ?_
    have hfits := isSome_numeral?_iff.mp hsome
    cases htext : text.toList with
    | nil =>
      rw [htext] at hname
      cases hname
    | cons c cs =>
      rw [htext, isName, (start_of_fits_number (htext ▸ hfits)).2] at hname
      cases hname
  rw [literalValue]
  split
  · next cs htext =>
    rw [htext] at hname
    cases hname
  · rw [hnumber]
    rfl

/-- A literal fits the class of its value. -/
theorem fits_of_isLiteral (h : isLiteral text) :
    (literalValue text).kind.Fits text.toList ∧
      Lexeme.of (literalValue text).kind text = (literalValue text).lexeme := by
  rcases isLiteral_iff.mp h with hcolor | hnumber | hword
  · rw [literalValue_of_color hcolor]
    exact ⟨hcolor, rfl⟩
  · obtain ⟨n, hn⟩ := Option.isSome_iff_exists.mp (isSome_numeral?_iff.mpr hnumber)
    rw [literalValue_of_number hn]
    exact ⟨hnumber, by simp [Lexeme.of, StyleValue.kind, StyleValue.lexeme, hn]⟩
  · rw [literalValue_of_isWord hword]
    exact ⟨hword, rfl⟩

/-- A text that is one colour or one word. -/
def IsTextValue (text : String) : Prop := TokenKind.color.Fits text.toList ∨ IsWord text

/-- Such a text is a literal, and read as the text that it is. -/
theorem isLiteral_of_isTextValue (h : IsTextValue text) :
    isLiteral text ∧ (literalValue text = .color text ∨ literalValue text = .name text) := by
  rcases h with hcolor | hword
  · exact ⟨isLiteral_iff.mpr (.inl hcolor), .inl (literalValue_of_color hcolor)⟩
  · exact ⟨isLiteral_iff.mpr (.inr (.inr hword)), .inr (literalValue_of_isWord hword)⟩

end Literals

/-- The text of a number is one of its class. -/
theorem fits_text (n : Numeral) : TokenKind.number.Fits n.text.toList := by
  refine ⟨Decimal.digits n.magnitude, Nat.toDigits_ne_nil, ?_, ?_⟩
  · exact List.all_eq_true.mpr fun c hc => isDigit_of_mem_digits hc
  · rw [Numeral.text, String.toList_ofList]
    cases n.negative
    · exact .inl rfl
    · exact .inr rfl

/-- A number is written as a literal. -/
theorem isLiteral_text (n : Numeral) :
    isLiteral n.text ∧ literalValue n.text = .number n := by
  refine ⟨isLiteral_iff.mpr (.inr (.inl (fits_text n))), ?_⟩
  exact literalValue_of_number (numeral?_text n)

end Diagram
