/-!
# Layers of a graph

A graph with cycles is first made acyclic: a depth-first search turns around every
edge that leads back to a vertex it is still busy with.  Then every vertex is put
into the layer that is the length of the longest path that ends in it.

The search also yields the order for the second step.  A vertex is finished after
all that its edges lead to, so the vertices in reverse order of finishing are a
topological order of the graph with those edges turned around.
-/

namespace Diagram

/-- An edge between two vertices. -/
abbrev Arc := Nat × Nat

/-- How far a depth-first search has got. -/
structure Search where
  /-- The vertices the search is busy with, the latest first. -/
  active : List Nat := []
  /-- The vertices it has finished, the latest first. -/
  finished : List Nat := []
  /-- The positions of the edges that lead back. -/
  reversed : List Nat := []
  deriving Repr

/-- The edges out of a vertex, loops apart: where they lead, and their positions. -/
def outgoing (arcs : List Arc) (v : Nat) : List (Nat × Nat) :=
  arcs.zipIdx.filterMap (fun ((s, t), e) => if s = v ∧ t ≠ v then some (t, e) else none)

/-- Follows every edge from `v` to what has not been seen, then finishes `v`; `fuel`
bounds the length of the path to `v`. -/
def visit (arcs : List Arc) : Nat → Nat → Search → Search
  | 0, _, st => st
  | fuel + 1, v, st =>
    let st := (outgoing arcs v).foldl
      (fun st (w, e) =>
        -- the state is asked anew for every edge, since the edges before it may have finished `w`
        if st.finished.contains w then st
        else if st.active.contains w then { st with reversed := e :: st.reversed }
        else visit arcs fuel w st)
      { st with active := v :: st.active }
    { st with active := st.active.tail, finished := v :: st.finished }

/-- A depth-first search from every vertex in turn. -/
def search (n : Nat) (arcs : List Arc) : Search :=
  -- a path has no vertex twice, so it never has more than `n` of them
  (List.range n).foldl
    (fun st v => if st.finished.contains v then st else visit arcs (n + 1) v st) {}

/-- The edges, those at the given positions turned around. -/
def reoriented (arcs : List Arc) (reversed : List Nat) : List Arc :=
  arcs.zipIdx.map (fun ((s, t), e) => if reversed.contains e then (t, s) else (s, t))

/-- Raises the layers behind the edges out of `v` above the layer of `v`. -/
def raiseTargets (arcs : List Arc) (layers : List Nat) (v : Nat) : List Nat :=
  arcs.foldl
    (fun layers (s, t) =>
      -- a loop would raise its own vertex
      if s = v ∧ t ≠ v then layers.modify t (fun l => max l (layers.getD v 0 + 1)) else layers)
    layers

/-- The layer of every vertex, for an acyclic graph and an order in which every edge
leads onwards. -/
def longestPaths (n : Nat) (arcs : List Arc) (order : List Nat) : List Nat :=
  order.foldl (raiseTargets arcs) (List.replicate n 0)

/-- The layer of every vertex, and the positions of the edges that are turned
around. -/
def assignLayers (n : Nat) (arcs : List Arc) : List Nat × List Nat :=
  let found := search n arcs
  (longestPaths n (reoriented arcs found.reversed) found.finished, found.reversed)

end Diagram
