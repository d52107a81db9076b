import Diagram.Canvas.Shape
import Diagram.Document.Render

/-!
# From shapes to documents

Rectangles and ellipses become nodes, named in order.  A line or an arrow becomes
an edge when a node lies within reach of each of its ends; when both ends are
nearest to the same node, one of them moves on to its second nearest.  All other
shapes are passed over.
-/

namespace Diagram

/-- The name of the `i`th node: a letter, and from the 27th on a number. -/
def generatedId (i : Nat) : String :=
  if i < 26 then String.singleton (Char.ofNat ('a'.toNat + i)) else "node" ++ toString (i + 1)

def isBlankFill (fill : String) : Bool :=
  ["", "transparent", "none", "white", "#fff", "#ffffff"].contains fill.toLower

def isBlack (stroke : String) : Bool := ["", "black", "#000", "#000000"].contains stroke.toLower

variable {α : Type}

/-- A shape that stands for a node. -/
structure Candidate (α : Type) where
  id : String
  box : Box α
  shape : Shape α

section
variable [Scalar α]

/-- The shapes that stand for nodes, with their names. -/
def candidates (shapes : List (Shape α)) : List (Candidate α) :=
  (shapes.filterMap (fun s => s.bounds.map (s, ·))).mapIdx
    (fun i (s, b) => ⟨generatedId i, b, s⟩)

/-- The shape of the node that a figure stands for. -/
def Figure.nodeShape : Figure α → NodeShape
  | .ellipse .. => .circle
  | _ => .rect

/-- The style of the node behind a shape: what differs from the defaults, and its
place if asked for. -/
def Candidate.style (positions : Bool) (c : Candidate α) : Style α :=
  let (w, h) := c.shape.figure.nodeShape.defaultSize
  let width := Scalar.round c.box.width
  let height := Scalar.round c.box.height
  let sized := !(Scalar.same width (Scalar.ofNat w) && Scalar.same height (Scalar.ofNat h))
  let stroke := Scalar.round c.shape.paint.strokeWidth
  { x := if positions then some (Scalar.round c.box.x) else none
    y := if positions then some (Scalar.round c.box.y) else none
    width := if sized then some width else none
    height := if sized then some height else none
    fill := if isBlankFill c.shape.paint.fill then none else some c.shape.paint.fill
    stroke := if isBlack c.shape.paint.stroke then none else some c.shape.paint.stroke
    strokeWidth := if Scalar.same stroke (Scalar.ofNat 2) then none else some stroke }

/-- The node behind a shape. -/
def Candidate.node (positions : Bool) (c : Candidate α) : Node α where
  id := c.id
  label := c.shape.label
  shape := some c.shape.figure.nodeShape
  style := c.style positions

/-- The operator behind a connector. -/
def Shape.arrowKind (s : Shape α) : Arrow :=
  match s.figure with
  | .arrow _ true true .. => .both
  | .arrow _ true false .. => .left
  | .arrow .. =>
    -- the heads do not tell these apart, only how the line is drawn
    if s.paint.dashed then .dotted
    else if Scalar.ofNat 4 ≤ s.paint.strokeWidth then .thick
    else .right
  | _ => .line

end

section
variable [Metric α]

/-- How far from a node's box an end of an edge may lie. -/
def reach : α := Scalar.ofNat 50

/-- The nodes within reach of a point with their distances, the nearest first; of
two equally near the earlier first. -/
def nearest (cs : List (Candidate α)) (p : Point α) : List (Candidate α × α) :=
  ((cs.map (fun c => (c, c.box.distanceTo p))).filter (fun h => h.2 ≤ reach)).mergeSort
    (fun a b => a.2 ≤ b.2)

/-- The two nodes that a connector with the given ends joins. -/
def joined? (cs : List (Candidate α)) (start stop : Point α) : Option (String × String) :=
  match nearest cs start, nearest cs stop with
  | (a, _) :: as, (b, _) :: bs =>
    if a.id ≠ b.id then some (a.id, b.id)
    else
      -- the end moves on if it can, and only else the start
      match bs, as with
      | (b', _) :: _, _ => some (a.id, b'.id)
      | [], (a', _) :: _ => some (a'.id, b.id)
      | [], [] => none
  | _, _ => none

/-- The edge behind a shape. -/
def inferEdge? (cs : List (Candidate α)) (s : Shape α) : Option (Edge α) := do
  let (start, stop) ← s.endpoints
  let (source, target) ← joined? cs start stop
  return { source, target, arrow := s.arrowKind, label := s.label }

/-- The document behind some shapes. -/
def inferDocument (positions : Bool) (shapes : List (Shape α)) : Document α :=
  let cs := candidates shapes
  ⟨cs.map (fun c => .node (c.node positions)) ++ (shapes.filterMap (inferEdge? cs)).map .edge, []⟩

/-- The text behind some shapes. -/
def decompile (positions : Bool) (shapes : List (Shape α)) : String :=
  (inferDocument positions shapes).render

end

end Diagram
