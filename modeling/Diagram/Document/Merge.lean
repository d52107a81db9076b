import Diagram.Document.Basic
import Diagram.Syntax.Parser

/-!
# From syntax to documents

Every reference to a node adds to one record per name, kept in the order in which
names are first seen.  A chain of links becomes edges.  A reference that stands
alone becomes a node statement, the first time only.  At the end every node
statement is given the final record, and the nodes that never stood alone are put
in front.
-/

namespace Diagram

variable {α : Type} [Scalar α]

/-- The value of a number, as a scalar. -/
def Syntax.Numeral.scalar (n : Syntax.Numeral) : α :=
  if n.negative then -Scalar.ofNat n.magnitude else Scalar.ofNat n.magnitude

/-- A property laid over a style; a property whose key is unknown or takes another
kind of value changes nothing. -/
def Style.add (s : Style α) (p : Syntax.Property) : Style α :=
  match p.value.value with
  | .number n => (s.setNumber? p.key.value n.scalar).getD s
  | .color t | .name t => (s.setText? p.key.value t).getD s

/-- The style that a list of properties sets. -/
def Style.ofProperties (ps : List Syntax.Property) : Style α := ps.foldl Style.add {}

/-- The style of an optional list of properties. -/
def Style.ofList? (ps : Option Syntax.PropertyList) : Style α :=
  match ps with
  | some ps => Style.ofProperties ps.items
  | none => {}

/-- What one reference says about its node. -/
def Node.ofRef (r : Syntax.NodeRef) : Node α where
  id := r.id
  label := r.label.map Syntax.Located.value
  shape := r.shape.map Syntax.ShapeSpec.shape
  style :=
    match r.shape with
    | some s => Style.ofProperties s.properties
    | none => {}

/-! ## Records -/

/-- What is known about each node, in the order in which they were first seen. -/
abbrev Registry (α : Type) := List (Node α)

namespace Registry

/-- Adds what a reference says to the record of its node. -/
def add : Registry α → Node α → Registry α
  | [], n => [n]
  | m :: ms, n => if m.id == n.id then m.merge n :: ms else m :: add ms n

def find? (r : Registry α) (id : String) : Option (Node α) := List.find? (fun n => n.id == id) r

def addAll (r : Registry α) (refs : List Syntax.NodeRef) : Registry α :=
  refs.foldl (fun r n => r.add (Node.ofRef n)) r

end Registry

/-- The state of the walk: the records, and the names that already have a node
statement. -/
structure Walk (α : Type) where
  registry : Registry α := []
  declared : List String := []

/-- The edge of one link. -/
def Edge.ofLink (source : String) (l : Syntax.Link) : Edge α where
  source := source
  target := l.target.id
  arrow := l.arrow.value
  label := l.label.map Syntax.Located.value
  style := Style.ofList? l.anchor

/-- The edges of a chain of links that starts at a node. -/
def edgesOf (source : String) : List Syntax.Link → List (Edge α)
  | [] => []
  | l :: ls => Edge.ofLink source l :: edgesOf l.target.id ls

/-- One chain: its references are added, and its edges, or its node when there are
none, are stated. -/
def Walk.chain (w : Walk α) (c : Syntax.Chain) : List (Statement α) × Walk α :=
  let registry := w.registry.addAll c.refs
  if c.links.isEmpty then
    -- a name has one node statement, where it first stands alone
    if w.declared.contains c.head.id then ([], { w with registry })
    else ([.node { id := c.head.id }], ⟨registry, w.declared ++ [c.head.id]⟩)
  else ((edgesOf c.head.id c.links).map .edge, { w with registry })

mutual

/-- One statement of a tree. -/
def collectOne (w : Walk α) : Syntax.Statement → List (Statement α) × Walk α
  | .group _ id style body _ =>
    let (children, w) := collect w body
    ([.group id.value (Style.ofList? style) children], w)
  | .layout _ name => ([.layout name.value], w)
  | .freeArrow _ ps => ([.freeArrow (Style.ofProperties ps.items)], w)
  | .chain c => w.chain c

/-- The statements of a tree, their nodes yet without their records. -/
def collect (w : Walk α) : List Syntax.Statement → List (Statement α) × Walk α
  | [] => ([], w)
  | s :: ss =>
    let (first, w) := collectOne w s
    let (more, w) := collect w ss
    (first ++ more, w)

end

mutual

/-- A statement with the final record of its node. -/
def Statement.fill (r : Registry α) : Statement α → Statement α
  | .node n => .node ((r.find? n.id).getD n)
  | .group id style children => .group id style (fillAll r children)
  | s => s

/-- Statements with the final records of their nodes. -/
def Statement.fillAll (r : Registry α) : List (Statement α) → List (Statement α)
  | [] => []
  | s :: ss => Statement.fill r s :: fillAll r ss

end

def statementsOf (tree : List Syntax.Statement) : List (Statement α) :=
  let (statements, w) := collect ({} : Walk α) tree
  let implied := w.registry.filter (fun n => !w.declared.contains n.id)
  -- each is put in front of those before it
  implied.reverse.map .node ++ Statement.fillAll w.registry statements

/-- A message, with the places it is about. -/
def ParseError.ofIssue (e : Issue) : ParseError := ⟨e.message, some ⟨e.span.first, e.span.last⟩⟩

/-- The document of a text: its statements, or the messages about it. -/
def Document.ofText (text : String) : Document α :=
  let (tree, issues) := Syntax.parse text
  -- one message is enough for no statement to count
  if issues.isEmpty then ⟨statementsOf tree, []⟩ else ⟨[], issues.map ParseError.ofIssue⟩

end Diagram
