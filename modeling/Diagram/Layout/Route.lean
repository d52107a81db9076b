import Diagram.Layout.Topology

/-!
# Boxes and routes

An arrangement is moved so that its top left corner is the origin.  Then an edge
runs from the border of its source through its bends to the border of its target;
an edge from a node to itself goes around the lower right corner of the node.
-/

namespace Diagram

variable {α : Type} [Scalar α]

/-- The least of some values; one that does not compare is passed over. -/
def minimum? : List α → Option α
  | [] => none
  | x :: xs =>
    match minimum? xs with
    | some m => some (Scalar.min m x)
    | none => if x ≤ x then some x else none

/-- The top left corner of an arrangement. -/
def Placement.corner? (p : Placement α) (sizes : List (α × α)) : Option (Point α) := do
  let bends := p.bends.flatten
  let boxes := p.centers.zip sizes
  let x ← minimum? (boxes.map (fun (c, s) => c.x - s.1 / Scalar.ofNat 2) ++ bends.map Point.x)
  let y ← minimum? (boxes.map (fun (c, s) => c.y - s.2 / Scalar.ofNat 2) ++ bends.map Point.y)
  return ⟨x, y⟩

/-- An arrangement with its corner at the origin.  It stays where it is when it has
no corner that is a point of the plane. -/
def Placement.normalize (p : Placement α) (sizes : List (α × α)) : Placement α :=
  match p.corner? sizes with
  | some c =>
    if Scalar.isFinite c.x && Scalar.isFinite c.y then
      { centers := p.centers.map (fun q => q.sub c)
        bends := p.bends.map (fun qs => qs.map (fun q => q.sub c)) }
    else p
  | none => p

/-- How far along a direction a border lies, in units of the direction and not
beyond its end. -/
def borderShare (half d : α) : α :=
  if Scalar.same d Scalar.zero then Scalar.ofNat 1 else half / Scalar.abs d

/-- Where the way from the centre of a box to a point leaves the box, or the point
itself when it does not. -/
def Box.clip (b : Box α) (toward : Point α) : Point α :=
  let c := b.center
  let d := toward.sub c
  if Scalar.same d.x Scalar.zero && Scalar.same d.y Scalar.zero then c
  else
    -- the border that is met first, unless the point comes before it
    let share :=
      Scalar.min
        (Scalar.min (borderShare (b.width / Scalar.ofNat 2) d.x)
          (borderShare (b.height / Scalar.ofNat 2) d.y))
        (Scalar.ofNat 1)
    ⟨c.x + d.x * share, c.y + d.y * share⟩

/-- The way from a box around its lower right corner back to it. -/
def Box.loop (b : Box α) : Section α :=
  let c := b.center
  let right := b.x + b.width
  let bottom := b.y + b.height
  let reach : α := Scalar.ofNat 20
  -- out at the right, and in again from below
  { startPoint := ⟨right, c.y⟩
    bendPoints := [⟨right + reach, c.y⟩, ⟨right + reach, bottom + reach⟩, ⟨c.x, bottom + reach⟩]
    endPoint := ⟨c.x, bottom⟩ }

/-- The way from one box through some bends to another. -/
def routeBetween (source target : Box α) (bends : List (Point α)) : Section α where
  startPoint := source.clip (bends.head?.getD target.center)
  bendPoints := bends
  endPoint := target.clip (bends.getLast?.getD source.center)

/-- The box of a node around its centre. -/
def SizedNode.boxAt (n : SizedNode α) (c : Point α) : Box α :=
  ⟨c.x - n.width / Scalar.ofNat 2, c.y - n.height / Scalar.ofNat 2, n.width, n.height⟩

/-- A node placed around its centre, which has to be a point of the plane. -/
def SizedNode.place (n : SizedNode α) (c : Point α) : Except LayoutError (PlacedNode α) :=
  if Scalar.isFinite c.x && Scalar.isFinite c.y then .ok ⟨n.id, n.boxAt c⟩
  else .error (.nonFinite n.id)

/-- The route of one edge, between nodes at two positions. -/
def routeEdge (boxes : Array (Box α)) (e : GraphEdge) (link : Nat × Nat)
    (bends : List (Point α)) : RoutedEdge α :=
  let zero : Box α := ⟨Scalar.zero, Scalar.zero, Scalar.zero, Scalar.zero⟩
  let source := boxes.getD link.1 zero
  let target := boxes.getD link.2 zero
  ⟨e.id, [if link.1 = link.2 then source.loop else routeBetween source target bends]⟩

/-- The boxes and routes of an arrangement. -/
def Placement.realize (p : Placement α) (g : LayoutGraph α) (t : Topology α) :
    Except LayoutError (LayoutResult α) := do
  let p := p.normalize t.sizes
  let nodes ← (g.nodes.zip p.centers).mapM (fun (n, c) => n.place c)
  let boxes := (nodes.map PlacedNode.box).toArray
  let edges := ((g.edges.zip t.links).zip p.bends).map
    (fun ((e, link), bends) => routeEdge boxes e link bends)
  return ⟨nodes, edges⟩

end Diagram
