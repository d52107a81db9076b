import Diagram.Geometry

/-!
# Canvas shapes

What a diagram is drawn with: rectangles and ellipses, lines and arrows, strokes
and texts, each at a place of the canvas.  The points of a line are relative to the
place of its shape.  A line or an arrow can remember the two shapes it joins.
-/

namespace Diagram

variable {α : Type}

/-- The identity of a shape. -/
structure ShapeId where
  value : BitVec 128
  deriving DecidableEq, Repr, Inhabited

/-- The identity that is `i` places behind a random one.  Four bits say that it is
random, and two more by which scheme it is laid out; the others are free. -/
def ShapeId.random (seed i : Nat) : ShapeId :=
  let bits := BitVec.ofNat 128 (seed + i)
  let reserved : BitVec 128 := (0xf <<< 76) ||| (0x3 <<< 62)
  ⟨(bits &&& ~~~reserved) ||| (0x4 <<< 76) ||| (0x2 <<< 62)⟩

/-- How a shape is stroked and filled. -/
structure Paint (α : Type) where
  stroke : String
  fill : String
  strokeWidth : α
  opacity : α
  dashed : Bool
  deriving BEq, DecidableEq, Repr

/-- A solid black outline, two units wide. -/
def Paint.default [Scalar α] : Paint α :=
  ⟨"#000000", "transparent", Scalar.ofNat 2, Scalar.ofNat 1, false⟩

/-- What a shape is. -/
inductive Figure (α : Type) where
  | rectangle (width height cornerRadius : α) (label : Option String)
  | ellipse (width height : α) (label : Option String)
  | line (points : List (Point α)) (startConnection endConnection : Option ShapeId)
      (label : Option String)
  | arrow (points : List (Point α)) (startArrow endArrow : Bool)
      (startConnection endConnection : Option ShapeId) (label : Option String)
  | freehand (points : List (Point α))
  | text (text : String) (fontSize : α)
  deriving BEq, DecidableEq, Repr

/-- An object on the canvas. -/
structure Shape (α : Type) where
  id : ShapeId
  x : α
  y : α
  rotation : α
  paint : Paint α
  figure : Figure α
  deriving BEq, DecidableEq, Repr

namespace Figure

/-- Whether the figure can stand for a node. -/
def isNodeCapable : Figure α → Bool
  | rectangle .. | ellipse .. => true
  | _ => false

/-- Whether the figure can stand for an edge. -/
def isConnector : Figure α → Bool
  | line .. | arrow .. => true
  | _ => false

/-- Width and height of a figure that can stand for a node. -/
def size? : Figure α → Option (α × α)
  | rectangle w h _ _ | ellipse w h _ => some (w, h)
  | _ => none

/-- The points of a connector. -/
def connectorPoints? : Figure α → Option (List (Point α))
  | line ps .. | arrow ps .. => some ps
  | _ => none

def points : Figure α → List (Point α)
  | line ps .. | arrow ps .. | freehand ps => ps
  | _ => []

def label : Figure α → Option String
  | rectangle _ _ _ l | ellipse _ _ l | line _ _ _ l | arrow _ _ _ _ _ l => l
  | text t _ => some t
  | freehand _ => none

def setLabel (l : Option String) : Figure α → Figure α
  | rectangle w h r _ => rectangle w h r l
  | ellipse w h _ => ellipse w h l
  | line ps a b _ => line ps a b l
  | arrow ps s e a b _ => arrow ps s e a b l
  | f => f

/-- Records which shapes a connector joins. -/
def connect (start stop : ShapeId) : Figure α → Figure α
  | line ps _ _ l => line ps (some start) (some stop) l
  | arrow ps s e _ _ l => arrow ps s e (some start) (some stop) l
  | f => f

end Figure

namespace Shape

variable [Scalar α]

/-- A shape as it is first drawn. -/
def new (id : ShapeId) (x y : α) (figure : Figure α) : Shape α :=
  ⟨id, x, y, Scalar.zero, Paint.default, figure⟩

/-- The line, or with heads the arrow, through points of the canvas.  It is placed
at the first of them. -/
def connector (id : ShapeId) (absolute : List (Point α)) (heads : Option (Bool × Bool)) :
    Shape α :=
  let at' := absolute.head?.getD Point.origin
  let points := absolute.map (fun p => p.sub at')
  new id at'.x at'.y
    (match heads with
    | some (s, e) => .arrow points s e none none none
    | none => .line points none none none)

/-- The box of a shape that can stand for a node. -/
def bounds (s : Shape α) : Option (Box α) :=
  s.figure.size?.map (fun (w, h) => ⟨s.x, s.y, w, h⟩)

/-- Where a point of the shape lies on the canvas. -/
def absolute (s : Shape α) (p : Point α) : Point α := ⟨s.x + p.x, s.y + p.y⟩

/-- The first and the last point of a connector, if it has at least two. -/
def endpoints (s : Shape α) : Option (Point α × Point α) :=
  match s.figure.connectorPoints? with
  | some (p :: q :: rest) => some (s.absolute p, s.absolute ((q :: rest).getLast (by simp)))
  | _ => none

/-- The points of a connector or a stroke, on the canvas. -/
def absolutePoints (s : Shape α) : List (Point α) := s.figure.points.map s.absolute

def label (s : Shape α) : Option String := s.figure.label

def setLabel (s : Shape α) (l : Option String) : Shape α := { s with figure := s.figure.setLabel l }

/-- Records which shapes a connector joins. -/
def connect (s : Shape α) (start stop : ShapeId) : Shape α :=
  { s with figure := s.figure.connect start stop }

end Shape

end Diagram
