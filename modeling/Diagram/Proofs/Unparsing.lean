import Diagram.Proofs.Lexeme

/-!
# Unparsing

A tree is turned back into the lexemes it was read from, and the trees that the grammar
derives are told from the others.  Printer and parser meet here: what is printed is the
unparsing of a tree, and what is parsed is a tree whose unparsing is the text.
-/

namespace Diagram

/-! ## Marks -/

/-- The text of a class that has only one, and nothing for the other classes. -/
def TokenKind.spelling : TokenKind → String
  | .group => "group"
  | .freeArrow => "arrow"
  | .layout => "@layout"
  | .arrow a => a.symbol
  | .leftBrace => "\x7b"
  | .rightBrace => "\x7d"
  | .leftParen => "("
  | .rightParen => ")"
  | .colon => ":"
  | .comma => ","
  | .dot => "."
  | .shapeName | .string | .color | .number | .identifier => ""

/-- Whether all tokens of a class have the same text. -/
def TokenKind.isFixed : TokenKind → Bool
  | .shapeName | .string | .color | .number | .identifier => false
  | _ => true

/-- The lexeme of a class that has only one text. -/
def Lexeme.mark (k : TokenKind) : Lexeme := ⟨k, k.spelling⟩

@[simp] theorem kind_mark (k : TokenKind) : (Lexeme.mark k).kind = k := rfl

/-- The only text that fits a class with one text is that text. -/
theorem eq_spelling_of_fits {k : TokenKind} (hk : k.isFixed) {w : List Char} (h : k.Fits w) :
    w = k.spelling.toList := by
  cases k <;> first | exact h | cases hk

theorem lexeme_of_isFixed {t : Token} (ht : t.Fits) (hk : t.kind.isFixed) :
    t.lexeme = .mark t.kind := by
  have hne : t.kind ≠ .number := by
    rintro hn
    rw [hn] at hk
    cases hk
  rw [lexeme_of_ne_number hne, Lexeme.mark, ← String.toList_inj.mp (eq_spelling_of_fits hk ht)]

namespace Syntax

/-! ## Leaves -/

/-- The lexeme of an identifier. -/
def word (text : String) : Lexeme := ⟨.identifier, text⟩

/-- The lexeme of the value of a property. -/
def StyleValue.lexeme : StyleValue → Lexeme
  | .color text => ⟨.color, text⟩
  | .number n => ⟨.number, n.text⟩
  | .name text => word text

/-- The lexemes of a label. -/
def labelLexemes (text : Located String) : List Lexeme :=
  [.mark .colon, ⟨.string, "\"" ++ text.value ++ "\""⟩]

/-! ## Properties -/

/-- The lexemes of a property. -/
def Property.lexemes (p : Property) : List Lexeme :=
  [word p.key.value, .mark .colon, p.value.value.lexeme]

/-- The lexemes of properties that each follow a comma. -/
def moreLexemes (ps : List Property) : List Lexeme :=
  ps.flatMap (fun p => .mark .comma :: p.lexemes)

/-- The lexemes of properties with commas between them. -/
def propertyLexemes : List Property → List Lexeme
  | [] => []
  | p :: ps => p.lexemes ++ moreLexemes ps

/-- The lexemes of properties in parentheses. -/
def PropertyList.lexemes (ps : PropertyList) : List Lexeme :=
  .mark .leftParen :: (propertyLexemes ps.items ++ [.mark .rightParen])

/-- The lexemes of a shape in parentheses. -/
def ShapeSpec.lexemes (s : ShapeSpec) : List Lexeme :=
  .mark .leftParen :: ⟨.shapeName, s.keyword.value⟩ ::
    (moreLexemes s.properties ++ [.mark .rightParen])

/-! ## Chains -/

/-- The lexemes of the name of a node. -/
def NodeName.lexemes (n : NodeName) : List Lexeme :=
  word n.head.value :: n.member.elim [] (fun m => [.mark .dot, word m.value])

/-- The lexemes of a node reference. -/
def NodeRef.lexemes (r : NodeRef) : List Lexeme :=
  r.name.lexemes ++ (r.shape.elim [] ShapeSpec.lexemes ++ r.label.elim [] labelLexemes)

/-- The lexemes of a link. -/
def Link.lexemes (l : Link) : List Lexeme :=
  .mark (.arrow l.arrow.value) :: (l.target.lexemes ++
    (l.anchor.elim [] PropertyList.lexemes ++ l.label.elim [] labelLexemes))

/-- The lexemes of a chain. -/
def Chain.lexemes (c : Chain) : List Lexeme := c.head.lexemes ++ c.links.flatMap Link.lexemes

/-! ## Statements -/

mutual

/-- The lexemes of a statement. -/
def Statement.lexemes : Statement → List Lexeme
  | .group _ id style body _ =>
    .mark .group :: word id.value :: (style.elim [] PropertyList.lexemes ++
      (.mark .leftBrace :: (lexemesAll body ++ [.mark .rightBrace])))
  | .layout _ name => [.mark .layout, .mark .colon, ⟨wordKind name.value, name.value⟩]
  | .freeArrow _ ps => .mark .freeArrow :: ps.lexemes
  | .chain c => c.lexemes

/-- The lexemes of some statements. -/
def lexemesAll : List Statement → List Lexeme
  | [] => []
  | s :: ss => s.lexemes ++ lexemesAll ss

end

@[simp] theorem lexemesAll_append (ss ts : List Statement) :
    lexemesAll (ss ++ ts) = lexemesAll ss ++ lexemesAll ts := by
  induction ss with
  | nil => rfl
  | cons s ss ih => simp [lexemesAll, ih]

/-! ## Proper trees -/

/-- A list of properties is not empty. -/
def PropertyList.IsProper (ps : PropertyList) : Prop := ps.items ≠ []

/-- A shape is the one its keyword names. -/
def ShapeSpec.IsProper (s : ShapeSpec) : Prop := NodeShape.ofKeyword? s.keyword.value = some s.shape

/-- The shape of a reference, if it has one, is the one its keyword names. -/
def NodeRef.IsProper (r : NodeRef) : Prop := ∀ s ∈ r.shape, s.IsProper

/-- Where the labels of a link are kept.  The target has one only behind a shape, and
the edge has one only where the target cannot take it: the target has no shape, or
there are properties in between, or the target has a label already. -/
structure Link.LabelRule (l : Link) : Prop where
  target : l.target.label.isSome → l.target.shape.isSome
  edge : l.label.isSome → l.target.shape = none ∨ l.anchor.isSome ∨ l.target.label.isSome

/-- The parts of a link are proper, and its labels are where they belong. -/
structure Link.IsProper (l : Link) : Prop where
  target : l.target.IsProper
  anchor : ∀ a ∈ l.anchor, a.IsProper
  labels : l.LabelRule

/-- The parts of a chain are proper. -/
structure Chain.IsProper (c : Chain) : Prop where
  head : c.head.IsProper
  links : ∀ l ∈ c.links, l.IsProper

mutual

/-- The parts of a statement are proper, and a layout is named by a word that can name
one. -/
def Statement.IsProper : Statement → Prop
  | .group _ _ style body _ => (∀ ps ∈ style, ps.IsProper) ∧ AreProper body
  | .layout _ name => wordKind name.value = .identifier ∨ wordKind name.value = .shapeName
  | .freeArrow _ ps => ps.IsProper
  | .chain c => c.IsProper

/-- Every statement of a list is proper. -/
def AreProper : List Statement → Prop
  | [] => True
  | s :: ss => s.IsProper ∧ AreProper ss

end

@[simp] theorem areProper_append {ss ts : List Statement} :
    AreProper (ss ++ ts) ↔ AreProper ss ∧ AreProper ts := by
  induction ss with
  | nil => exact (and_iff_right trivial).symm
  | cons s ss ih =>
    rw [List.cons_append, AreProper, AreProper, ih, and_assoc]

mutual

theorem isProper_of_mem_flatten : ∀ (st : Statement), st.IsProper →
    ∀ s ∈ st.flatten, s.IsProper
  | .group k id style body close, h, s, hs => by
    rw [Statement.flatten] at hs
    rcases List.mem_cons.mp hs with rfl | hs
    · exact h
    · rw [Statement.IsProper] at h
      exact isProper_of_mem_flattenAll body h.2 s hs
  | .layout .., h, s, hs | .freeArrow .., h, s, hs | .chain _, h, s, hs => by
    simp only [Statement.flatten, List.mem_singleton] at hs
    exact hs ▸ h

theorem isProper_of_mem_flattenAll : ∀ (ss : List Statement), AreProper ss →
    ∀ s ∈ Statement.flattenAll ss, s.IsProper
  | [], _, s, hs => by
    rw [Statement.flattenAll] at hs
    cases hs
  | st :: ss, h, s, hs => by
    rw [AreProper] at h
    rw [Statement.flattenAll] at hs
    rcases List.mem_append.mp hs with hs | hs
    · exact isProper_of_mem_flatten st h.1 s hs
    · exact isProper_of_mem_flattenAll ss h.2 s hs

end

/-- Every chain of a proper tree is proper, in whatever group it stands. -/
theorem isProper_of_mem_chains {tree : List Statement} (h : AreProper tree)
    {c : Chain} (hc : c ∈ chains tree) : c.IsProper := by
  obtain ⟨st, hst, hchain⟩ := List.mem_filterMap.mp hc
  have hproper := isProper_of_mem_flattenAll tree h st hst
  cases st <;> cases hchain
  rwa [Statement.IsProper] at hproper

/-! ## Trees without places -/

/-- The place of nothing. -/
def nowhere : Span := ⟨0, 0, .first, .first⟩

/-- A value without its place. -/
def Located.bare {β : Type} (x : Located β) : Located β := ⟨x.value, nowhere⟩

@[simp] theorem Located.value_bare {β : Type} (x : Located β) : x.bare.value = x.value := rfl

/-- Two values without their places are equal when the values are. -/
@[simp] theorem Located.bare_inj {β : Type} {x y : Located β} :
    x.bare = y.bare ↔ x.value = y.value := by
  simp [Located.bare]

/-- A property without its places. -/
def Property.bare (p : Property) : Property := ⟨p.key.bare, p.value.bare⟩

/-- Properties in parentheses without their places. -/
def PropertyList.bare (ps : PropertyList) : PropertyList := ⟨ps.items.map Property.bare, nowhere⟩

/-- A shape without its places. -/
def ShapeSpec.bare (s : ShapeSpec) : ShapeSpec :=
  ⟨s.shape, s.keyword.bare, s.properties.map Property.bare, nowhere⟩

/-- A name without its places. -/
def NodeName.bare (n : NodeName) : NodeName := ⟨n.head.bare, n.member.map Located.bare⟩

/-- A reference without its places. -/
def NodeRef.bare (r : NodeRef) : NodeRef :=
  ⟨r.name.bare, r.shape.map ShapeSpec.bare, r.label.map Located.bare⟩

/-- A link without its places. -/
def Link.bare (l : Link) : Link :=
  ⟨l.arrow.bare, l.target.bare, l.anchor.map PropertyList.bare, l.label.map Located.bare⟩

/-- A chain without its places. -/
def Chain.bare (c : Chain) : Chain := ⟨c.head.bare, c.links.map Link.bare⟩

mutual

/-- A statement without its places. -/
def Statement.bare : Statement → Statement
  | .group _ id style body _ =>
    .group nowhere id.bare (style.map PropertyList.bare) (bareAll body) nowhere
  | .layout _ name => .layout nowhere name.bare
  | .freeArrow _ ps => .freeArrow nowhere ps.bare
  | .chain c => .chain c.bare

/-- Statements without their places. -/
def bareAll : List Statement → List Statement
  | [] => []
  | s :: ss => s.bare :: bareAll ss

end

/-! ## First lexemes -/

/-- Whether the first lexeme is of the given class. -/
def leads (k : TokenKind) (ls : List Lexeme) : Bool := ls.head?.any (·.kind = k)

@[simp] theorem leads_nil (k : TokenKind) : leads k [] = false := rfl

@[simp] theorem leads_cons (k : TokenKind) (l : Lexeme) (ls : List Lexeme) :
    leads k (l :: ls) = decide (l.kind = k) := rfl

/-- Whether the first two lexemes open a shape. -/
def leadsShape : List Lexeme → Bool
  | p :: k :: _ => p.kind = .leftParen && k.kind = .shapeName
  | _ => false

/-- Whether the first lexeme is an edge operator. -/
def leadsArrow : List Lexeme → Bool
  | l :: _ => match l.kind with
    | .arrow _ => true
    | _ => false
  | [] => false

/-- The parser looks at nothing but the lexemes ahead. -/
theorem startsWith_eq (k : TokenKind) (s : List Token) :
    startsWith k s = leads k (s.map Token.lexeme) := by
  cases s <;> rfl

theorem startsShape_eq (s : List Token) : startsShape s = leadsShape (s.map Token.lexeme) := by
  match s with
  | [] | [_] | _ :: _ :: _ => rfl

theorem startsArrow_eq (s : List Token) : startsArrow s = leadsArrow (s.map Token.lexeme) := by
  cases s <;> rfl

end Syntax

end Diagram
