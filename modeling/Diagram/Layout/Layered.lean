import Diagram.Layout.Layers
import Diagram.Layout.Order
import Diagram.Layout.Topology

/-!
# The layered arrangement

Nodes are put into layers that follow each other in the chosen direction, so that
every edge that was not turned around leads onwards.  An edge across several layers
bends in each of them, at a virtual vertex that takes part in the ordering.

Along the direction, every layer is as thick as its thickest node.  Across it,
nodes stand apart by the node spacing, virtual vertices by the edge spacing, and
every layer is centred on the widest.
-/

namespace Diagram

variable {α : Type}

/-- A vertex of a layer: a node, or a place where an edge bends. -/
structure Vertex (α : Type) where
  layer : Nat
  isReal : Bool
  /-- Extent in the direction of the layers. -/
  along : α
  /-- Extent within the layer. -/
  across : α

/-- The numbers of the vertices between the ends of an edge, one for each layer that
it crosses, from number `next` on. -/
def virtualChain (layers : List Nat) (next : Nat) (arc : Nat × Nat) : List Nat :=
  if arc.1 = arc.2 then []
  -- nothing for an edge between neighbouring layers
  else List.range' next (layers.getD arc.2 0 - layers.getD arc.1 0 - 1)

/-- The virtual vertices of every edge, numbered from `next` on. -/
def virtualChains (layers : List Nat) : Nat → List (Nat × Nat) → List (List Nat)
  | _, [] => []
  | next, arc :: arcs =>
    let vs := virtualChain layers next arc
    vs :: virtualChains layers (next + vs.length) arcs

/-- The layers of the virtual vertices of an edge. -/
def virtualLayers (layers : List Nat) (arc : Nat × Nat) : List Nat :=
  if arc.1 = arc.2 then []
  else
    let first := layers.getD arc.1 0 + 1
    List.range' first (layers.getD arc.2 0 - layers.getD arc.1 0 - 1)

/-- The pairs of neighbours in a list. -/
def consecutive : List Nat → List (Nat × Nat)
  | u :: v :: vs => (u, v) :: consecutive (v :: vs)
  | _ => []

/-- The segments between consecutive layers that make up the edges. -/
def segmentsOf (arcs : List (Nat × Nat)) (chains : List (List Nat)) : List (Nat × Nat) :=
  (arcs.zip chains).flatMap
    (fun (arc, vs) => if arc.1 = arc.2 then [] else consecutive (arc.1 :: vs ++ [arc.2]))

section
variable [Scalar α]

/-- The largest of some extents that are not negative. -/
def largest (xs : List α) : α := xs.foldl Scalar.max Scalar.zero

/-- The centres of the vertices of one layer, and where the layer ends.  `cursor` is
where the previous vertex ends and `previous` whether that one is a node. -/
def rowPositions (o : Options α) (verts : Array (Vertex α)) :
    α → Option Bool → List Nat → List (Nat × α) × α
  | cursor, _, [] => ([], cursor)
  | cursor, previous, v :: vs =>
    let isReal := (verts[v]?.map Vertex.isReal).getD false
    let across := (verts[v]?.map Vertex.across).getD Scalar.zero
    let start :=
      match previous with
      -- only two nodes keep the node spacing between them
      | some p => cursor + (if p && isReal then o.nodeSpacing else o.edgeSpacing)
      | none => cursor
    let (more, stop) := rowPositions o verts (start + across) (some isReal) vs
    ((v, start + across / Scalar.ofNat 2) :: more, stop)

/-- The centre of every vertex within its layer. -/
def acrossPositions (o : Options α) (verts : Array (Vertex α)) (layers : List (List Nat)) :
    List (Nat × α) :=
  let rows := layers.map (rowPositions o verts Scalar.zero none)
  let widest := largest (rows.map Prod.snd)
  rows.flatMap (fun (row, width) =>
    row.map (fun (v, x) => (v, x + (widest - width) / Scalar.ofNat 2)))

def thicknesses (verts : Array (Vertex α)) (layers : List (List Nat)) : List α :=
  layers.map (fun l => largest (l.map (fun v => (verts[v]?.map Vertex.along).getD Scalar.zero)))

/-- Where every layer starts, and where the one behind the last would. -/
def layerStarts (o : Options α) : α → List α → List α × α
  | cursor, [] => ([], cursor)
  | cursor, t :: ts =>
    let (more, stop) := layerStarts o (cursor + (t + o.nodeSpacing)) ts
    (cursor :: more, stop)

/-- The vertices of a graph: its nodes, and the virtual vertices of its edges. -/
def vertices (horizontal : Bool) (sizes : List (α × α)) (layers : List Nat)
    (arcs : List (Nat × Nat)) : List (Vertex α) :=
  (sizes.zip layers).map (fun ((w, h), l) =>
    if horizontal then ⟨l, true, w, h⟩ else ⟨l, true, h, w⟩) ++
  (arcs.flatMap (virtualLayers layers)).map (fun l => ⟨l, false, Scalar.zero, Scalar.zero⟩)

def layered (t : Topology α) (o : Options α) : Placement α :=
  let (layers, reversed) := assignLayers t.size t.links
  let arcs := reoriented t.links reversed
  let chains := virtualChains layers t.size arcs
  let horizontal := o.direction.isHorizontal
  let vertexList := vertices horizontal t.sizes layers arcs
  let verts := vertexList.toArray
  let order := orderLayers α (vertexList.map Vertex.layer) (segmentsOf arcs chains)
  let across := acrossPositions o verts order.layers
  let thick := thicknesses verts order.layers
  let (starts, stop) := layerStarts o Scalar.zero thick
  -- behind the last layer there is no space
  let total := Scalar.max (stop - o.nodeSpacing) Scalar.zero
  let point (v : Nat) : Point α :=
    let layer := (verts[v]?.map Vertex.layer).getD 0
    let middle := starts.getD layer Scalar.zero + thick.getD layer Scalar.zero / Scalar.ofNat 2
    let along := if o.direction = .up ∨ o.direction = .left then total - middle else middle
    let x := (across.lookup v).getD Scalar.zero
    if horizontal then ⟨along, x⟩ else ⟨x, along⟩
  { centers := (List.range t.size).map point
    -- the chain of an edge that was turned around runs against it
    bends := chains.zipIdx.map (fun (vs, e) =>
      (if reversed.contains e then vs.reverse else vs).map point) }

end

end Diagram
