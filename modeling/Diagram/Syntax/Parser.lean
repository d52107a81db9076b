import Diagram.Number.Digits
import Diagram.Syntax.Lexer
import Diagram.Syntax.Tree

/-!
# Parsing

The grammar, where `?` marks an optional part and `*` a repeated one:

    Document   := Statement*
    Statement  := Group | Layout | FreeArrow | Chain
    Group      := 'group' Identifier Properties? '{' Statement* '}'
    Layout     := '@layout' ':' (Identifier | ShapeName)
    FreeArrow  := 'arrow' Properties
    Chain      := NodeRef (Arrow NodeRef Properties? Label?)*
    NodeRef    := Identifier ('.' Identifier)? ShapeSpec? Label?
    ShapeSpec  := '(' ShapeName (',' Property (',' Property)*)? ')'
    Properties := '(' Property (',' Property)* ')'
    Property   := Identifier ':' (Color | Number | Identifier)
    Label      := ':' String

A label behind the target of an edge belongs to the target when the target has a
shape, and to the edge otherwise.

A statement that does not fit the grammar is reported at the token it stops on, and
parsing goes on at the next token that can start a statement: a keyword, an
identifier on a later line than the error, or the closing brace of the group.
-/

namespace Diagram.Syntax

/-! ## Failures -/

/-- What a production wants at the token it stops on. -/
inductive Expectation where
  | token (kind : TokenKind)
  | layoutAlgorithm
  | arrowOperator
  | styleValue
  | statement
  deriving DecidableEq, Repr

/-- What a message calls the thing that is missing. -/
def Expectation.describe : Expectation → String
  | token kind => kind.describe
  | layoutAlgorithm => "layout algorithm"
  | arrowOperator => "arrow operator"
  | styleValue => "color, number, or name"
  | statement => "statement"

/-- The productions that a message can name. -/
inductive Production where
  | group
  | groupStyle
  | layout
  | freeArrow
  | edge
  | edgeAnchor
  | edgeLabel
  | dottedName
  | nodeLabel
  | shapeStyle
  | shapeSpec
  | property
  deriving DecidableEq, Repr

def Production.describe : Production → String
  | group => "group"
  | groupStyle => "group style"
  | layout => "layout directive"
  | freeArrow => "arrow"
  | edge => "edge"
  | edgeAnchor => "edge anchor"
  | edgeLabel => "edge label"
  | dottedName => "dotted node id"
  | nodeLabel => "node label"
  | shapeStyle => "shape style"
  | shapeSpec => "shape spec"
  | property => "style property"

/-- A production that stops: what it wants, the innermost named production around
it, and the tokens from the one it stops on. -/
structure Failure where
  expected : Expectation
  within : Option Production
  rest : List Token
  deriving DecidableEq, Repr

/-- Reads a value from the front of the tokens. -/
abbrev Parse (β : Type) := List Token → Except Failure (β × List Token)

/-- Names the production for failures that no inner production has named. -/
def inProduction {β : Type} (p : Production) : Except Failure β → Except Failure β
  | .ok v => .ok v
  | .error f => .error { f with within := f.within <|> some p }

/-- One token, of a class that `read` turns into a value. -/
def one {β : Type} (expected : Expectation) (read : Token → Option β) : Parse β
  | [] => .error ⟨expected, none, []⟩
  | t :: rest =>
    match read t with
    | some v => .ok (v, rest)
    | none => .error ⟨expected, none, t :: rest⟩

/-- One token of the given class. -/
def expect (kind : TokenKind) : Parse Token :=
  one (.token kind) (fun t => if t.kind = kind then some t else none)

/-- Whether the next token is of the given class. -/
def startsWith (kind : TokenKind) : List Token → Bool
  | [] => false
  | t :: _ => t.kind = kind

/-! ## Leaves -/

/-- The text of a token, with its span. -/
def Token.located (t : Token) : Located String := ⟨t.text, t.span⟩

def identifier : Parse (Located String) :=
  one (.token .identifier)
    (fun t => if t.kind = .identifier then some (Token.located t) else none)

/-- The name of a layout algorithm, which may be a shape keyword. -/
def algorithmName : Parse (Located String) :=
  one .layoutAlgorithm
    (fun t => if t.kind = .identifier ∨ t.kind = .shapeName then some (Token.located t) else none)

/-- The whole number that some digits write, behind an optional minus sign. -/
def numeral? (text : String) : Option Numeral :=
  let (negative, ds) :=
    match text.toList with
    | '-' :: ds => (true, ds)
    | ds => (false, ds)
  if !ds.isEmpty && ds.all Char.isDigit then some ⟨negative, Decimal.natOfDigits ds⟩ else none

/-- The value of a style property. -/
def styleValue : Parse (Located StyleValue) :=
  one .styleValue (fun t =>
    match t.kind with
    | .color => some ⟨.color t.text, t.span⟩
    | .number => (numeral? t.text).map (fun n => ⟨.number n, t.span⟩)
    | .identifier => some ⟨.name t.text, t.span⟩
    | _ => none)

def label (s : List Token) : Except Failure (Located String × List Token) := do
  let (_, s) ← expect .colon s
  let (t, s) ← expect .string s
  return (⟨t.unquoted, t.span⟩, s)

/-! ## Properties -/

/-- A property: always three tokens. -/
def property (s : List Token) : Except Failure Property := do
  let (key, s) ← inProduction .property (identifier s)
  let (_, s) ← inProduction .property (expect .colon s)
  -- the rest is not returned: `properties` knows where a property ends
  let (value, _) ← inProduction .property (styleValue s)
  return ⟨key, value⟩

/-- Properties separated by commas. -/
def properties (s : List Token) : Except Failure (List Property × List Token) := do
  let p ← property s
  match _h : s.drop 3 with
  | [] => return ([p], [])
  | t :: rest =>
    if t.kind = .comma then
      let (ps, rest) ← properties rest
      return (p :: ps, rest)
    else return ([p], t :: rest)
termination_by s.length
decreasing_by
  have := congrArg List.length _h
  simp at this
  omega

/-- Properties in parentheses. -/
def propertyList (s : List Token) : Except Failure (PropertyList × List Token) := do
  let (_, s) ← expect .leftParen s
  let (items, s) ← properties s
  let (close, s) ← expect .rightParen s
  return (⟨items, close.span⟩, s)

/-! ## Node references -/

/-- Whether a shape follows: a parenthesis and a shape keyword. -/
def startsShape : List Token → Bool
  | p :: k :: _ => p.kind = .leftParen && k.kind = .shapeName
  | _ => false

/-- A shape keyword with the shape it names. -/
def shapeKeyword (s : List Token) : Except Failure ((NodeShape × Located String) × List Token) := do
  let (keyword, s) ← expect .shapeName s
  match NodeShape.ofKeyword? keyword.text with
  | some shape => return ((shape, Token.located keyword), s)
  -- the lexer makes no such token
  | none => .error ⟨.statement, none, s⟩

/-- A shape in parentheses, with its properties. -/
def shapeSpec (s : List Token) : Except Failure (ShapeSpec × List Token) := do
  let (_, s) ← expect .leftParen s
  let ((shape, keyword), s) ← shapeKeyword s
  let (items, s) ←
    if startsWith .comma s then inProduction .shapeStyle (properties (s.drop 1))
    else pure ([], s)
  let (close, s) ← inProduction .shapeSpec (expect .rightParen s)
  return (⟨shape, keyword, items, close.span⟩, s)

/-- The name of a node. -/
def nodeName (s : List Token) : Except Failure (NodeName × List Token) := do
  let (head, s) ← identifier s
  if startsWith .dot s then
    let (member, s) ← inProduction .dottedName (identifier (s.drop 1))
    return (⟨head, some member⟩, s)
  else return (⟨head, none⟩, s)

/-- A part that is there exactly when the test says so. -/
def optional {β : Type} (test : List Token → Bool) (p : Parse β) : Parse (Option β) := fun s =>
  if test s then do
    let (v, s) ← p s
    return (some v, s)
  else pure (none, s)

/-- A node reference.  As the target of an edge it takes a label only behind a
shape. -/
def nodeRef (target : Bool) (s : List Token) : Except Failure (NodeRef × List Token) := do
  let (name, s) ← nodeName s
  let (shape, s) ← optional startsShape shapeSpec s
  let (text, s) ←
    optional (fun s => (!target || shape.isSome) && startsWith .colon s)
      (fun s => inProduction .nodeLabel (label s)) s
  return (⟨name, shape, text⟩, s)

/-! ## Statements -/

def arrow : Parse (Located Arrow) :=
  one .arrowOperator (fun t =>
    match t.kind with
    | .arrow a => some ⟨a, t.span⟩
    | _ => none)

/-- Whether an edge operator follows. -/
def startsArrow : List Token → Bool
  | t :: _ => match t.kind with
    | .arrow _ => true
    | _ => false
  | [] => false

/-- One link of a chain. -/
def link (s : List Token) : Except Failure (Link × List Token) := do
  let (operator, s) ← arrow s
  let (target, s) ← inProduction .edge (nodeRef true s)
  let (anchor, s) ←
    optional (startsWith .leftParen) (fun s => inProduction .edgeAnchor (propertyList s)) s
  let (text, s) ←
    optional (startsWith .colon) (fun s => inProduction .edgeLabel (label s)) s
  return (⟨operator, target, anchor, text⟩, s)

/-- The links of a chain; `fuel` is the number of tokens left. -/
def links : Nat → List Token → Except Failure (List Link × List Token)
  | 0, s => pure ([], s)
  | fuel + 1, s =>
    if startsArrow s then do
      let (l, s) ← link s
      let (ls, s) ← links fuel s
      return (l :: ls, s)
    else pure ([], s)

/-- A node reference and its links. -/
def chain (s : List Token) : Except Failure (Chain × List Token) := do
  let (head, s) ← nodeRef false s
  let (ls, s) ← links s.length s
  return (⟨head, ls⟩, s)

def layout (s : List Token) : Except Failure (Statement × List Token) := do
  let (keyword, s) ← expect .layout s
  let (_, s) ← inProduction .layout (expect .colon s)
  let (name, s) ← inProduction .layout (algorithmName s)
  return (.layout keyword.span name, s)

def freeArrow (s : List Token) : Except Failure (Statement × List Token) := do
  let (keyword, s) ← expect .freeArrow s
  let (items, s) ← inProduction .freeArrow (propertyList s)
  return (.freeArrow keyword.span items, s)

/-- What stands in front of the body of a group. -/
structure GroupHeader where
  keyword : Span
  id : Located String
  style : Option PropertyList
  deriving DecidableEq, Repr

/-- A group up to its opening brace. -/
def groupHeader (s : List Token) : Except Failure (GroupHeader × List Token) := do
  let (keyword, s) ← expect .group s
  let (id, s) ← inProduction .group (identifier s)
  let (style, s) ←
    optional (startsWith .leftParen) (fun s => inProduction .groupStyle (propertyList s)) s
  let (_, s) ← inProduction .group (expect .leftBrace s)
  return (⟨keyword.span, id, style⟩, s)

/-- The closing brace of a group. -/
def groupEnd (s : List Token) : Except Failure (Span × List Token) := do
  let (close, s) ← inProduction .group (expect .rightBrace s)
  return (close.span, s)

/-- A statement that holds no other statements. -/
def plainStatement (s : List Token) : Except Failure (Statement × List Token) :=
  match s with
  | [] => .error ⟨.statement, none, []⟩
  | t :: _ =>
    match t.kind with
    | .layout => layout s
    | .freeArrow => freeArrow s
    -- every node reference starts with a name
    | .identifier => (chain s).map (fun r => (.chain r.1, r.2))
    | _ => .error ⟨.statement, none, s⟩

/-! ## Recovery -/

/-- The span that a failure is reported at. -/
def Failure.span (eof : Span) (f : Failure) : Span :=
  match f.rest with
  | t :: _ => t.span
  | [] => eof

def Failure.message (f : Failure) : String :=
  let within :=
    match f.within with
    | some p => " in " ++ p.describe
    | none => ""
  let found :=
    match f.rest with
    | t :: _ => "\x60" ++ t.text ++ "\x60"
    | [] => "end of input"
  "expected " ++ f.expected.describe ++ within ++ ", found " ++ found

/-- Adds the message of a failure, unless the last message is about the same
place.  The messages are kept last first. -/
def report (eof : Span) (f : Failure) (issues : List Issue) : List Issue :=
  if issues.head?.any (fun e => e.span = f.span eof) then issues
  else ⟨f.message, f.span eof⟩ :: issues

/-- Whether parsing goes on at a token, after an error on the given line. -/
def canResume (nested : Bool) (line : Nat) (t : Token) : Bool :=
  match t.kind with
  | .group | .layout | .freeArrow => true
  | .identifier => line < t.span.first.line
  | .rightBrace => nested
  | _ => false

/-- The tokens at which parsing goes on after a statement that started with `s`
has failed.  At least one token is left behind. -/
def resume (eof : Span) (nested : Bool) (s : List Token) (f : Failure) : List Token :=
  -- a failure at the first token would be met again
  let from' := if s.length ≤ f.rest.length then s.drop 1 else f.rest
  from'.dropWhile (fun t => !canResume nested (f.span eof).first.line t)

/-- What a sequence of statements is read as. -/
structure Outcome where
  statements : List Statement
  /-- The messages, last first. -/
  issues : List Issue
  rest : List Token
  deriving Repr

mutual

/-- One statement.  The messages of the statements inside a group are kept also
when the group itself fails. -/
def statement (eof : Span) :
    Nat → List Issue → List Token → Except Failure (Statement × List Token) × List Issue
  | 0, issues, s => (.error ⟨.statement, none, s⟩, issues)
  | fuel + 1, issues, s =>
    if startsWith .group s then
      match groupHeader s with
      | .error f => (.error f, issues)
      | .ok (header, s) =>
        let body := statements eof fuel true issues s
        -- the body ends at a closing brace or at the end of the tokens
        match groupEnd body.rest with
        | .error f => (.error f, body.issues)
        | .ok (close, s) =>
          (.ok (.group header.keyword header.id header.style body.statements close, s), body.issues)
    else (plainStatement s, issues)

/-- Statements up to the end of the tokens or, inside a group, up to a closing
brace; `fuel` is at least twice the number of tokens. -/
def statements (eof : Span) : Nat → Bool → List Issue → List Token → Outcome
  | 0, _, issues, s => ⟨[], issues, s⟩
  | fuel + 1, nested, issues, s =>
    if s.isEmpty || (nested && startsWith .rightBrace s) then ⟨[], issues, s⟩
    else
      match statement eof fuel issues s with
      | (.ok (first, rest), issues) =>
        let more := statements eof fuel nested issues rest
        ⟨first :: more.statements, more.issues, more.rest⟩
      | (.error f, issues) =>
        statements eof fuel nested (report eof f issues) (resume eof nested s f)

end

/-! ## Whole texts -/

/-- The statements of a list of tokens, and a message for each that does not fit
the grammar. -/
def parseTokens (eof : Span) (tokens : List Token) : List Statement × List Issue :=
  -- each statement takes a token, and two calls
  let outcome := statements eof (2 * tokens.length + 2) false [] tokens
  (outcome.statements, outcome.issues.reverse)

/-- The statements of a text that fit the grammar, and all messages about it in
source order. -/
def parse (text : String) : List Statement × List Issue :=
  let (tokens, lexical) := tokenize text
  let (tree, syntactic) := parseTokens (endSpan text.toList) tokens
  -- stable, so of two messages that start at one place that of the lexer comes first
  (tree, (lexical ++ syntactic).mergeSort (fun a b => a.span.start ≤ b.span.start))

end Diagram.Syntax
