import Diagram.Syntax.Token
import Diagram.Text.Blank

/-!
# Splitting a text into tokens

A text is cut into pieces that follow each other without a gap: tokens, runs of
white space, comments, and stray characters where none of these begins.  The
tokens and the runs of stray characters are then given their spans.

A `#` begins a colour only directly after a colon, that is, when the last token
before it is one; everywhere else it begins a comment.
-/

namespace Diagram

/-! ## One token -/

/-- The length of the run of name characters at the start of a text. -/
def nameLength (s : List Char) : Nat := (s.takeWhile isNameChar).length

/-- The edge operator at the start of a text. -/
def arrowLexeme? (s : List Char) : Option (TokenKind × Nat) :=
  (Arrow.all.find? (fun a => a.symbol.toList.isPrefixOf s)).map
    (fun a => (.arrow a, a.symbol.length))

/-- A string: everything up to the next quote. -/
def stringLexeme? : List Char → Option (TokenKind × Nat)
  | '"' :: rest =>
    let body := rest.takeWhile (· ≠ '"')
    if body.length < rest.length then some (.string, body.length + 2) else none
  | _ => none

/-- A number: digits, with at most one minus sign in front. -/
def numberLexeme? (s : List Char) : Option (TokenKind × Nat) :=
  let sign := if s.head? = some '-' then 1 else 0
  let count := ((s.drop sign).takeWhile Char.isDigit).length
  if 0 < count then some (.number, sign + count) else none

/-- The layout keyword, which is no longer run of name characters. -/
def layoutLexeme? : List Char → Option (TokenKind × Nat)
  | '@' :: rest =>
    if rest.takeWhile isNameChar = "layout".toList then some (.layout, 7) else none
  | _ => none

/-- The class of a word. -/
def wordKind (word : String) : TokenKind :=
  if word = "group" then .group
  else if word = "arrow" then .freeArrow
  else if (NodeShape.ofKeyword? word).isSome then .shapeName
  else .identifier

/-- A word: a run of name characters with a letter or an underscore in front. -/
def wordLexeme? (s : List Char) : Option (TokenKind × Nat) :=
  if s.head?.any isNameStart then
    some (wordKind (String.ofList (s.takeWhile isNameChar)), nameLength s)
  else none

/-- The class of a punctuation character. -/
def punctuation? : Char → Option TokenKind
  | '\x7b' => some .leftBrace
  | '\x7d' => some .rightBrace
  | '(' => some .leftParen
  | ')' => some .rightParen
  | ':' => some .colon
  | ',' => some .comma
  | '.' => some .dot
  | _ => none

/-- One character of punctuation. -/
def punctuationLexeme? (s : List Char) : Option (TokenKind × Nat) :=
  (s.head?.bind punctuation?).map (·, 1)

/-- The class and the length of the token at the start of a text, colours apart. -/
def lexeme? (s : List Char) : Option (TokenKind × Nat) :=
  arrowLexeme? s <|> stringLexeme? s <|> numberLexeme? s <|> layoutLexeme? s <|> wordLexeme? s <|>
    punctuationLexeme? s

/-- The length of the colour at the start of a text: a `#` and three to six
hexadecimal digits that do not run into a name. -/
def colorLength? : List Char → Option Nat
  | '#' :: rest =>
    -- a seventh digit is a character of a name, so longer runs are no colours
    let run := (rest.takeWhile isHexDigit).take 6
    if 3 ≤ run.length ∧ ¬ (rest.drop run.length).head?.any isNameChar then some (run.length + 1)
    else none
  | _ => none

/-! ## Pieces -/

/-- What a stretch of text is. -/
inductive PieceKind where
  | token (kind : TokenKind)
  | blank
  | comment
  | stray
  deriving DecidableEq, Repr

/-- A stretch of text and what it is. -/
structure Piece where
  kind : PieceKind
  text : List Char
  deriving DecidableEq, Repr

/-- What stands at the start of a text, and how long it is. -/
def firstPiece (afterColon : Bool) (s : List Char) : PieceKind × Nat :=
  if s.head?.any isBlank then (.blank, (s.takeWhile isBlank).length)
  else if s.head? = some '#' then
    -- a value is expected behind a colon only; anywhere else a comment begins
    match if afterColon then colorLength? s else none with
    | some n => (.token .color, n)
    | none => (.comment, (s.takeWhile (· ≠ '\n')).length)
  else
    match lexeme? s with
    | some (kind, n) => (.token kind, n)
    | none => (.stray, 1)

/-- Whether the last token is a colon, once a piece has been read. -/
def PieceKind.colonAfter (afterColon : Bool) : PieceKind → Bool
  | .token kind => kind = .colon
  -- white space and comments are no tokens
  | _ => afterColon

/-- A text cut into pieces. -/
def pieces (afterColon : Bool) : List Char → List Piece
  | [] => []
  | c :: cs =>
    let (kind, n) := firstPiece afterColon (c :: cs)
    ⟨kind, c :: cs.take (n - 1)⟩ :: pieces (kind.colonAfter afterColon) (cs.drop (n - 1))
termination_by s => s.length
decreasing_by simp only [List.length_drop, List.length_cons]; omega

/-- The pieces of a text make up the text. -/
@[simp] theorem text_pieces (afterColon : Bool) (s : List Char) :
    (pieces afterColon s).flatMap Piece.text = s := by
  fun_induction pieces afterColon s with
  | case1 => rfl
  | case2 afterColon c cs kind n _ ih => simp [ih]

/-- Stray characters that follow each other become one piece. -/
def joinStray : List Piece → List Piece
  | [] => []
  | p :: ps =>
    match joinStray ps with
    | [] => [p]
    | q :: qs =>
      if p.kind = .stray ∧ q.kind = .stray then ⟨.stray, p.text ++ q.text⟩ :: qs
      else p :: q :: qs

/-- Joining keeps the text. -/
@[simp] theorem text_joinStray (ps : List Piece) :
    (joinStray ps).flatMap Piece.text = ps.flatMap Piece.text := by
  induction ps with
  | nil => rfl
  | cons p ps ih =>
    rw [joinStray, List.flatMap_cons, ← ih]
    split
    · next h => simp [h]
    · next h => split <;> simp [h]

/-! ## Spans -/

/-- Each piece with the span it covers. -/
def locate : Cursor → List Piece → List (Piece × Span)
  | _, [] => []
  | cur, p :: ps => (p, cur.cover p.text) :: locate (cur.skip p.text) ps

/-- The token that a piece is. -/
def Piece.token? (p : Piece × Span) : Option Token :=
  match p.1.kind with
  | .token kind => some ⟨kind, String.ofList p.1.text, p.2⟩
  | _ => none

/-- The message about a run of stray characters. -/
def Piece.issue? (p : Piece × Span) : Option Issue :=
  match p.1.kind with
  | .stray => some ⟨"unexpected character sequence \x60" ++ String.ofList p.1.text ++ "\x60", p.2⟩
  | _ => none

/-- The pieces of a text with their spans. -/
def located (text : String) : List (Piece × Span) :=
  locate .start (joinStray (pieces false text.toList))

/-- The tokens of a text, and a message for each run of stray characters. -/
def tokenize (text : String) : List Token × List Issue :=
  let ps := located text
  (ps.filterMap Piece.token?, ps.filterMap Piece.issue?)

end Diagram
