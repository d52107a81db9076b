import Diagram.Layout.Graph

/-!
# The graph behind a layout

The arrangements do not look at names: they see the sizes of the nodes, and the
edges as pairs of positions in the list of nodes.
-/

namespace Diagram

variable {α : Type}

/-- The sizes of the nodes, and the two ends of every edge. -/
structure Topology (α : Type) where
  sizes : List (α × α)
  links : List (Nat × Nat)

/-- The centres of the nodes, and for every edge the points where it bends. -/
structure Placement (α : Type) where
  centers : List (Point α)
  bends : List (List (Point α))

/-- The position of the last node with a given name. -/
def indexOf? (nodes : List (SizedNode α)) (id : String) : Option Nat :=
  (nodes.zipIdx.reverse.find? (fun n => n.1.id == id)).map Prod.snd

/-- The end of an edge as a position in the list of nodes. -/
def endOf (nodes : List (SizedNode α)) (edge id : String) : Except LayoutError Nat :=
  match indexOf? nodes id with
  | some i => .ok i
  | none => .error (.unknownNode edge id)

/-- Sizes and links of a graph.  Every end of an edge has to be the name of a
node. -/
def LayoutGraph.topology (g : LayoutGraph α) : Except LayoutError (Topology α) := do
  let links ← g.edges.mapM (fun e => do
    let source ← endOf g.nodes e.id e.source
    let target ← endOf g.nodes e.id e.target
    return (source, target))
  return ⟨g.nodes.map (fun n => (n.width, n.height)), links⟩

namespace Topology

def size (t : Topology α) : Nat := t.sizes.length

def noBends (t : Topology α) : List (List (Point α)) := t.links.map (fun _ => [])

/-- The largest extent of a node and the space next to it: the unit of distance of
the arrangements that work by distance. -/
def unit [Scalar α] (t : Topology α) (o : Options α) : α :=
  (t.sizes.map (fun s => Scalar.max s.1 s.2)).foldl Scalar.max Scalar.zero + o.nodeSpacing

end Topology

/-! ## Hops -/

/-- The nodes at the other end of the links at `v`. -/
def neighbors (links : List (Nat × Nat)) (v : Nat) : List Nat :=
  links.flatMap (fun (s, t) => (if s = v then [t] else []) ++ (if t = v then [s] else []))

/-- The members of a list that are not among those already seen, each once. -/
def fresh (seen : List Nat) : List Nat → List Nat
  | [] => []
  | v :: vs => if seen.contains v then fresh seen vs else v :: fresh (v :: seen) vs

/-- The nodes by their distance, from distance `d` on: `front` holds those at
distance `d`, and `seen` those found so far. -/
def rings (links : List (Nat × Nat)) : Nat → List Nat → List Nat → List (List Nat)
  | 0, _, _ => []
  | fuel + 1, seen, front =>
    if front.isEmpty then []
    else
      let next := fresh seen (front.flatMap (neighbors links))
      front :: rings links fuel (next ++ seen) next

/-- Where a value stands in a list of lists. -/
def ringOf? : List (List Nat) → Nat → Option Nat
  | [], _ => none
  | r :: rs, v => if r.contains v then some 0 else (ringOf? rs v).map (· + 1)

/-- How many edges, in whatever direction, every node is away from `root`; nothing
where no path leads. -/
def Topology.hopsFrom (t : Topology α) (root : Nat) : List (Option Nat) :=
  -- no ring is empty, so there are at most as many as nodes
  let rs := rings t.links (t.size + 1) [root] [root]
  (List.range t.size).map (ringOf? rs)

end Diagram
