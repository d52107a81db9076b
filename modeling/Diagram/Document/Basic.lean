import Diagram.Document.Style
import Diagram.Document.Vocabulary
import Diagram.Text.Span

/-!
# Documents

What a text means: a list of statements in which every node stands once, with all
that was said about it, and edges name the nodes they join.  Groups hold statements
but have no influence on where things are drawn.
-/

namespace Diagram

variable {α : Type}

/-- A node: its name and what is known about it. -/
structure Node (α : Type) where
  id : String
  label : Option String := none
  shape : Option NodeShape := none
  style : Style α := {}
  deriving BEq, DecidableEq, Repr, Inhabited

namespace Node

/-- What a later occurrence says, laid over what is known. -/
def merge (n later : Node α) : Node α where
  id := n.id
  label := later.label <|> n.label
  shape := later.shape <|> n.shape
  style := n.style.merge later.style

@[simp] theorem id_merge (n later : Node α) : (n.merge later).id = n.id := rfl

/-- The shape that is drawn: a rectangle when nothing else is said. -/
def shapeOrDefault (n : Node α) : NodeShape := n.shape.getD .rect

/-- Width and height, from the style or else from the shape. -/
def size [Scalar α] (n : Node α) : α × α :=
  let (w, h) := n.shapeOrDefault.defaultSize
  (n.style.width.getD (Scalar.ofNat w), n.style.height.getD (Scalar.ofNat h))

end Node

/-- An edge between two nodes. -/
structure Edge (α : Type) where
  source : String
  target : String
  arrow : Arrow
  label : Option String := none
  /-- Anchors of the two ends, and the look of the line. -/
  style : Style α := {}
  deriving BEq, DecidableEq, Repr

/-- A statement of a document. -/
inductive Statement (α : Type) where
  | node (n : Node α)
  | edge (e : Edge α)
  | group (id : String) (style : Style α) (children : List (Statement α))
  | layout (algorithm : String)
  | freeArrow (style : Style α)
  deriving BEq, Repr

namespace Statement

/-- What kind of statement it is. -/
def kindName : Statement α → String
  | node _ => "node"
  | edge _ => "edge"
  | group .. => "group"
  | layout _ => "layout"
  | freeArrow _ => "arrow"

mutual

/-- A statement, followed by the statements inside it. -/
def flatten : Statement α → List (Statement α)
  | group id style children => group id style children :: flattenAll children
  | s => [s]

/-- The statements of a list, each followed by the statements inside it. -/
def flattenAll : List (Statement α) → List (Statement α)
  | [] => []
  | s :: ss => flatten s ++ flattenAll ss

end

def node? : Statement α → Option (Node α)
  | node n => some n
  | _ => none

def edge? : Statement α → Option (Edge α)
  | edge e => some e
  | _ => none

/-- The style of the free arrow that a statement is. -/
def freeArrow? : Statement α → Option (Style α)
  | freeArrow s => some s
  | _ => none

/-- The algorithm that a statement asks for. -/
def layout? : Statement α → Option String
  | layout name => some name
  | _ => none

end Statement

/-- The places of the first and the last character that a message is about. -/
structure Region where
  first : Position
  last : Position
  deriving DecidableEq, Repr

/-- A message about a text. -/
structure ParseError where
  message : String
  location : Option Region
  deriving DecidableEq, Repr

/-- A document.  One that was read from a text has no statements when there are
messages about the text. -/
structure Document (α : Type) where
  statements : List (Statement α)
  errors : List ParseError
  deriving Repr

namespace Document

def isOk (d : Document α) : Bool := d.errors.isEmpty

/-- Every statement, a group's before those inside it. -/
def flatten (d : Document α) : List (Statement α) := Statement.flattenAll d.statements

/-- Every node, in document order. -/
def nodes (d : Document α) : List (Node α) := d.flatten.filterMap Statement.node?

/-- Every edge, in document order. -/
def edges (d : Document α) : List (Edge α) := d.flatten.filterMap Statement.edge?

/-- The style of every free arrow, in document order. -/
def freeArrows (d : Document α) : List (Style α) := d.flatten.filterMap Statement.freeArrow?

def node? (d : Document α) (id : String) : Option (Node α) := d.nodes.find? (fun n => n.id == id)

/-- The algorithm that the last layout directive names. -/
def layoutDirective (d : Document α) : Option String :=
  (d.flatten.filterMap Statement.layout?).getLast?

end Document

end Diagram
