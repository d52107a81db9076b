import Diagram.Number.Scalar

/-!
# Points and boxes

The plane has its x axis to the right and its y axis downwards.  A box is given by
its top left corner and its size; a size may be negative, and then the box extends
to the other side of the corner.
-/

namespace Diagram

variable {α : Type}

/-- A point of the plane. -/
structure Point (α : Type) where
  x : α
  y : α
  deriving BEq, DecidableEq, Repr

/-- A box: its corner and its size. -/
structure Box (α : Type) where
  x : α
  y : α
  width : α
  height : α
  deriving BEq, DecidableEq, Repr

namespace Point

variable [Scalar α]

def origin : Point α := ⟨Scalar.zero, Scalar.zero⟩

/-- A point moved by a vector. -/
def add (p v : Point α) : Point α := ⟨p.x + v.x, p.y + v.y⟩

/-- The vector from `q` to `p`. -/
def sub (p q : Point α) : Point α := ⟨p.x - q.x, p.y - q.y⟩

/-- Whether two points agree in both coordinates. -/
def same (p q : Point α) : Bool := Scalar.same p.x q.x && Scalar.same p.y q.y

def distance {α : Type} [Metric α] (p q : Point α) : α := Metric.hypot (p.x - q.x) (p.y - q.y)

end Point

namespace Box

variable [Scalar α]

def center (b : Box α) : Point α :=
  ⟨b.x + b.width / Scalar.ofNat 2, b.y + b.height / Scalar.ofNat 2⟩

/-- The ends of an interval, in order. -/
def interval (start size : α) : α × α :=
  let stop := start + size
  if start ≤ stop then (start, stop) else (stop, start)

/-- How far a coordinate lies outside an interval; zero inside. -/
def outside (ends : α × α) (p : α) : α :=
  Scalar.max (Scalar.max (ends.1 - p) Scalar.zero) (p - ends.2)

/-- The distance from a point to a box; zero inside and on the border. -/
def distanceTo {α : Type} [Metric α] (b : Box α) (p : Point α) : α :=
  Metric.hypot (outside (interval b.x b.width) p.x) (outside (interval b.y b.height) p.y)

end Box

end Diagram
