import Diagram.Document.Vocabulary
import Diagram.Text.Span

/-!
# Tokens

The words of the diagram language, each with its text as written and the span it
covers.
-/

namespace Diagram

/-- The classes of tokens. -/
inductive TokenKind where
  | group
  | freeArrow
  | layout
  | shapeName
  | arrow (operator : Arrow)
  | string
  | color
  | number
  | identifier
  | leftBrace
  | rightBrace
  | leftParen
  | rightParen
  | colon
  | comma
  | dot
  deriving DecidableEq, Repr, Inhabited

namespace TokenKind

/-- What a message calls a token that it misses. -/
def describe : TokenKind → String
  | group => "'group'"
  | freeArrow => "'arrow'"
  | layout => "'@layout'"
  | shapeName => "shape name"
  | arrow _ => "arrow operator"
  | string => "string"
  | color => "color"
  | number => "number"
  | identifier => "identifier"
  | leftBrace => "'\x7b'"
  | rightBrace => "'\x7d'"
  | leftParen => "'('"
  | rightParen => "')'"
  | colon => "':'"
  | comma => "','"
  | dot => "'.'"

end TokenKind

/-- A token of a text. -/
structure Token where
  kind : TokenKind
  /-- The text as written, with the quotes of a string. -/
  text : String
  span : Span
  deriving DecidableEq, Repr

/-- The text between the quotes of a string, and any other text itself. -/
def unquote (text : String) : String :=
  match text.toList with
  | '"' :: rest => if rest.getLast? = some '"' then String.ofList rest.dropLast else text
  | _ => text

def Token.unquoted (t : Token) : String := unquote t.text

/-- A message about a stretch of text. -/
structure Issue where
  message : String
  span : Span
  deriving DecidableEq, Repr

end Diagram
