import Diagram.Syntax.Token

/-!
# Syntax trees

The parse of a text before anything is merged.  Every leaf keeps the span it was
read from, and so does every bracket that ends a construct, so the span of a larger
part is computed from its first and its last token.
-/

namespace Diagram.Syntax

/-- A value and the span it was read from. -/
structure Located (β : Type) where
  value : β
  span : Span
  deriving DecidableEq, Repr

/-- A whole number as it is written.  Also a zero can have a minus sign. -/
structure Numeral where
  negative : Bool
  magnitude : Nat
  deriving DecidableEq, Repr

/-- The value of a style property. -/
inductive StyleValue where
  | color (text : String)
  | number (n : Numeral)
  | name (text : String)
  deriving DecidableEq, Repr

def StyleValue.kindName : StyleValue → String
  | color _ => "color"
  | number _ => "number"
  | name _ => "name"

/-- A key, a colon and a value. -/
structure Property where
  key : Located String
  value : Located StyleValue
  deriving DecidableEq, Repr

/-- Properties in parentheses. -/
structure PropertyList where
  items : List Property
  /-- The closing parenthesis. -/
  close : Span
  deriving DecidableEq, Repr

/-- A shape keyword in parentheses, with properties behind it. -/
structure ShapeSpec where
  shape : NodeShape
  /-- The keyword as written. -/
  keyword : Located String
  properties : List Property
  /-- The closing parenthesis. -/
  close : Span
  deriving DecidableEq, Repr

/-- The name of a node: an identifier, or two of them joined by a dot. -/
structure NodeName where
  head : Located String
  member : Option (Located String)
  deriving DecidableEq, Repr

namespace NodeName

/-- The name as one string. -/
def text (n : NodeName) : String :=
  match n.member with
  | some m => n.head.value ++ "." ++ m.value
  | none => n.head.value

def span (n : NodeName) : Span :=
  match n.member with
  | some m => n.head.span.merge m.span
  | none => n.head.span

end NodeName

/-- A node's name, and what is said about the node. -/
structure NodeRef where
  name : NodeName
  shape : Option ShapeSpec
  label : Option (Located String)
  deriving DecidableEq, Repr

namespace NodeRef

def id (n : NodeRef) : String := n.name.text

def lastSpan (n : NodeRef) : Span :=
  match n.label, n.shape with
  | some l, _ => l.span
  | none, some s => s.close
  | none, none => n.name.span

end NodeRef

/-- One step of a chain: an operator, its target, and what belongs to the edge. -/
structure Link where
  arrow : Located Arrow
  target : NodeRef
  anchor : Option PropertyList
  label : Option (Located String)
  deriving DecidableEq, Repr

def Link.lastSpan (l : Link) : Span :=
  match l.label, l.anchor with
  | some t, _ => t.span
  | none, some a => a.close
  | none, none => l.target.lastSpan

/-- A node reference and the links that lead on from it. -/
structure Chain where
  head : NodeRef
  links : List Link
  deriving DecidableEq, Repr

namespace Chain

/-- Every node reference of a chain, in order. -/
def refs (c : Chain) : List NodeRef := c.head :: c.links.map Link.target

def span (c : Chain) : Span :=
  c.head.name.head.span.merge
    (match c.links.getLast? with
    | some l => l.lastSpan
    | none => c.head.lastSpan)

end Chain

/-- A statement. -/
inductive Statement where
  /-- A group, from its keyword to its closing brace. -/
  | group (keyword : Span) (id : Located String) (style : Option PropertyList)
      (body : List Statement) (close : Span)
  /-- A layout directive. -/
  | layout (keyword : Span) (algorithm : Located String)
  /-- An arrow that joins no nodes. -/
  | freeArrow (keyword : Span) (properties : PropertyList)
  /-- A node reference, or a chain of edges. -/
  | chain (c : Chain)
  deriving Repr

namespace Statement

def span : Statement → Span
  | group keyword _ _ _ close => keyword.merge close
  | layout keyword algorithm => keyword.merge algorithm.span
  | freeArrow keyword properties => keyword.merge properties.close
  | chain c => c.span

mutual

/-- A statement, followed by the statements inside it. -/
def flatten : Statement → List Statement
  | group keyword id style body close =>
    group keyword id style body close :: flattenAll body
  | s => [s]

/-- The statements of a list, each followed by the statements inside it. -/
def flattenAll : List Statement → List Statement
  | [] => []
  | s :: ss => flatten s ++ flattenAll ss

end

def chain? : Statement → Option Chain
  | chain c => some c
  | _ => none

end Statement

/-- Every chain of some statements and of the groups among them. -/
def chains (ss : List Statement) : List Chain :=
  (Statement.flattenAll ss).filterMap Statement.chain?

/-- Every node reference of some statements and of the groups among them. -/
def nodeRefs (ss : List Statement) : List NodeRef := (chains ss).flatMap Chain.refs

end Diagram.Syntax
