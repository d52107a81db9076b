import Diagram.Document.Render
import Diagram.Syntax.Parser

/-!
# Lexemes

A lexeme is what a token says once its place in the text is forgotten: its class and
its text, where a number counts only by its value.  Two token lists with the same
lexemes are read as the same tree, so a printer is checked against lexemes and never
against places.
-/

namespace Diagram

/-- A letter or an underscore, and name characters behind it. -/
def isName : List Char → Bool
  | [] => false
  | c :: cs => isNameStart c && cs.all isNameChar

/-- The texts of the tokens of a class. -/
def TokenKind.Fits : TokenKind → List Char → Prop
  | .group, w => w = "group".toList
  | .freeArrow, w => w = "arrow".toList
  | .layout, w => w = "@layout".toList
  | .shapeName, w => (NodeShape.ofKeyword? (String.ofList w)).isSome
  | .arrow a, w => w = a.symbol.toList
  | .string, w => ∃ body, '"' ∉ body ∧ w = '"' :: (body ++ ['"'])
  | .color, w => ∃ ds, 3 ≤ ds.length ∧ ds.length ≤ 6 ∧ ds.all isHexDigit ∧ w = '#' :: ds
  | .number, w => ∃ ds, ds ≠ [] ∧ ds.all Char.isDigit ∧ (w = ds ∨ w = '-' :: ds)
  | .identifier, w => isName w ∧ isKeyword (String.ofList w) = false
  | .leftBrace, w => w = ['\x7b']
  | .rightBrace, w => w = ['\x7d']
  | .leftParen, w => w = ['(']
  | .rightParen, w => w = [')']
  | .colon, w => w = [':']
  | .comma, w => w = [',']
  | .dot, w => w = ['.']

/-- A token whose text is one of its class. -/
def Token.Fits (t : Token) : Prop := t.kind.Fits t.text.toList

/-! ## Words -/

/-- Every shape keyword is a name. -/
theorem isName_of_shapeKeyword {w : List Char}
    (h : (NodeShape.ofKeyword? (String.ofList w)).isSome) : isName w := by
  obtain ⟨p, hp, hw⟩ := List.lookup_isSome_iff.mp h
  have hw : w = p.1.toList := by
    rw [← beq_iff_eq.mp hw, String.toList_ofList]
  subst hw
  revert p
  decide

theorem isKeyword_iff {word : String} : isKeyword word ↔
    word = "group" ∨ word = "arrow" ∨ (NodeShape.ofKeyword? word).isSome := by
  simp only [isKeyword, Bool.or_eq_true, beq_iff_eq, or_assoc]

/-- A name is a token of the class that its word has. -/
theorem fits_wordKind {w : List Char} (h : isName w) :
    (wordKind (String.ofList w)).Fits w := by
  have hof : ∀ s : String, String.ofList w = s → w = s.toList := by
    rintro s rfl
    rw [String.toList_ofList]
  unfold wordKind
  split
  · next hg => exact hof _ hg
  split
  · next ha => exact hof _ ha
  split
  · next hs => exact hs
  · next hg ha hs =>
      refine ⟨h, Bool.eq_false_iff.mpr fun hkey => ?_⟩
      exact (isKeyword_iff.mp hkey).elim hg (Or.elim · ha hs)

/-- The classes that words have. -/
def TokenKind.isWord : TokenKind → Bool
  | .group | .freeArrow | .shapeName | .identifier => true
  | _ => false

/-- A token of one of the classes of words is a name, and the class is its own. -/
theorem isName_of_fits {k : TokenKind} (hk : k.isWord) {w : List Char} (h : k.Fits w) :
    isName w ∧ wordKind (String.ofList w) = k := by
  cases k <;> simp only [TokenKind.isWord, Bool.false_eq_true] at hk
  case group => subst h; decide
  case freeArrow => subst h; decide
  case shapeName =>
    have h : (NodeShape.ofKeyword? (String.ofList w)).isSome := h
    refine ⟨isName_of_shapeKeyword h, ?_⟩
    have hg : String.ofList w ≠ "group" := by rintro hw; rw [hw] at h; revert h; decide
    have ha : String.ofList w ≠ "arrow" := by rintro hw; rw [hw] at h; revert h; decide
    simp [wordKind, hg, ha, h]
  case identifier =>
    obtain ⟨hn, hw⟩ := h
    rw [Bool.eq_false_iff, ne_eq, isKeyword_iff, not_or, not_or] at hw
    obtain ⟨hg, ha, hs⟩ := hw
    exact ⟨hn, by simp [wordKind, hg, ha, hs]⟩

/-! ## Numerals -/

namespace Syntax

/-- The canonical text of a whole number. -/
def Numeral.text (n : Numeral) : String :=
  String.ofList ((if n.negative then ['-'] else []) ++ Decimal.digits n.magnitude)

/-- The digits of a number write the number. -/
theorem natOfDigits_digits (n : Nat) : Decimal.natOfDigits (Decimal.digits n) = n :=
  Nat.ofDigitChars_ten_toDigits

/-- A digit is not the minus sign. -/
theorem ne_minus_of_isDigit {c : Char} (h : c.isDigit) : c ≠ '-' := by
  rintro rfl
  revert h
  decide

theorem isDigit_of_mem_digits {n : Nat} {c : Char} (h : c ∈ Decimal.digits n) : c.isDigit :=
  Nat.isDigit_of_mem_toDigits (by decide) (by decide) h

/-- **A whole number is read back from its canonical text.** -/
@[simp] theorem numeral?_text (n : Numeral) : numeral? n.text = some n := by
  obtain ⟨negative, m⟩ := n
  have hne : Decimal.digits m ≠ [] := Nat.toDigits_ne_nil
  have hall : (Decimal.digits m).all Char.isDigit :=
    List.all_eq_true.mpr fun c hc => isDigit_of_mem_digits hc
  cases negative
  · obtain ⟨c, cs, hc⟩ := List.exists_cons_of_ne_nil hne
    have hminus : c ≠ '-' := ne_minus_of_isDigit (isDigit_of_mem_digits (by rw [hc]; simp))
    have hn := natOfDigits_digits m
    rw [hc] at hn hall
    simp [numeral?, Numeral.text, hc, hminus, hn, hall]
  · simp [numeral?, Numeral.text, natOfDigits_digits, hne, hall]

/-- The digits of a number stand behind the sign that it may start with. -/
theorem fits_number_cons {c : Char} {cs : List Char} : TokenKind.number.Fits (c :: cs) ↔
    (if c = '-' then cs else c :: cs) ≠ [] ∧
      (if c = '-' then cs else c :: cs).all Char.isDigit := by
  constructor
  · rintro ⟨ds, hne, hall, rfl | hcs⟩
    · have hd : c.isDigit := List.all_eq_true.mp hall c List.mem_cons_self
      rw [if_neg (ne_minus_of_isDigit hd)]
      exact ⟨hne, hall⟩
    · obtain ⟨rfl, rfl⟩ := List.cons.inj hcs
      rw [if_pos rfl]
      exact ⟨hne, hall⟩
  · rintro ⟨hne, hall⟩
    refine ⟨_, hne, hall, ?_⟩
    split
    · next hc => exact .inr (by rw [hc])
    · exact .inl rfl

/-- The texts of number tokens are those that write a number. -/
theorem isSome_numeral?_iff {text : String} :
    (numeral? text).isSome ↔ TokenKind.number.Fits text.toList := by
  rw [numeral?]
  cases text.toList with
  | nil => simp [TokenKind.Fits]
  | cons c cs =>
    rw [fits_number_cons]
    by_cases hc : c = '-' <;> simp [hc]

end Syntax

/-! ## Lexemes -/

/-- The class and the text of a token, without its place. -/
structure Lexeme where
  kind : TokenKind
  text : String
  deriving DecidableEq, Repr

/-- The lexeme of a class and a text.  A number is given its canonical text. -/
def Lexeme.of (kind : TokenKind) (text : String) : Lexeme :=
  ⟨kind, if kind = .number then ((Syntax.numeral? text).map Syntax.Numeral.text).getD text
    else text⟩

/-- What a token says. -/
def Token.lexeme (t : Token) : Lexeme := .of t.kind t.text

@[simp] theorem kind_lexeme (t : Token) : t.lexeme.kind = t.kind := rfl

/-- Apart from numbers a lexeme keeps the text. -/
theorem lexeme_of_ne_number {t : Token} (h : t.kind ≠ .number) : t.lexeme = ⟨t.kind, t.text⟩ := by
  simp [Token.lexeme, Lexeme.of, h]

theorem lexeme_of_number {t : Token} {n : Syntax.Numeral} (hk : t.kind = .number)
    (hn : Syntax.numeral? t.text = some n) : t.lexeme = ⟨.number, n.text⟩ := by
  simp [Token.lexeme, Lexeme.of, hk, hn]

/-- **The lexeme of a number tells the number.** -/
theorem numeral?_of_lexeme {t : Token} {n : Syntax.Numeral} (h : t.lexeme = ⟨.number, n.text⟩) :
    Syntax.numeral? t.text = some n := by
  have hk : t.kind = .number := congrArg Lexeme.kind h
  have htext : ((Syntax.numeral? t.text).map Syntax.Numeral.text).getD t.text = n.text := by
    simpa [Token.lexeme, Lexeme.of, hk] using h
  cases hn : Syntax.numeral? t.text with
  | none =>
    rw [hn] at htext
    rw [← hn, show t.text = n.text from htext, Syntax.numeral?_text]
  | some m =>
    have hm : m.text = n.text := by rwa [hn] at htext
    rw [← Syntax.numeral?_text m, hm, Syntax.numeral?_text]

end Diagram
