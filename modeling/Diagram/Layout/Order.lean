import Diagram.Number.Scalar

/-!
# The order within layers

The vertices of a layer are sorted by the mean position of their neighbours in the
layer before it, then, on the way back, in the layer behind it; a vertex without
neighbours counts where it stands.  Vertices with equal means keep their order.
The means are quotients in the type of the coordinates, so where quotients are
rounded, means that are rounded to the same count as equal.
-/

namespace Diagram

/-- The vertices of every layer, in order, and for every vertex its place in its
layer. -/
structure LayerOrder where
  layers : List (List Nat)
  places : Array Nat
  deriving Repr

section

variable (α : Type) [Scalar α]

/-- The mean of some places. -/
def mean (places : List Nat) : α :=
  places.foldl (fun sum k => sum + Scalar.ofNat k) Scalar.zero / Scalar.ofNat places.length

/-- The mean place of a vertex's neighbours, or its own place when it has none. -/
def meanPlace (places : Array Nat) (adjacent : List Nat) (v : Nat) : α :=
  if adjacent.isEmpty then Scalar.ofNat (places.getD v 0)
  else mean α (adjacent.map fun u => places.getD u 0)

/-- Records the places of the vertices of one layer. -/
def recordPlaces (places : Array Nat) (layer : List Nat) : Array Nat :=
  layer.zipIdx.foldl (fun places (v, i) => places.setIfInBounds v i) places

/-- One layer, sorted by the mean places of its vertices' neighbours. -/
def reorder (adjacent : Array (List Nat)) (places : Array Nat) (layer : List Nat) :
    List Nat × Array Nat :=
  let keyed := layer.map (fun v => (meanPlace α places (adjacent.getD v []) v, v))
  let sorted := (keyed.mergeSort (fun a b => a.1 ≤ b.1)).map Prod.snd
  (sorted, recordPlaces places sorted)

/-- Every layer of a list, sorted one after the other. -/
def reorderAll (adjacent : Array (List Nat)) (places : Array Nat) :
    List (List Nat) → List (List Nat) × Array Nat
  | [] => ([], places)
  | l :: ls =>
    -- the next layer is sorted by the places that this one has now
    let (first, places) := reorder α adjacent places l
    let (more, places) := reorderAll adjacent places ls
    (first :: more, places)

/-- Every layer but the first, sorted. -/
def reorderTail (adjacent : Array (List Nat)) (o : LayerOrder) : LayerOrder :=
  match o.layers with
  | [] => o
  | l :: ls =>
    let (sorted, places) := reorderAll α adjacent o.places ls
    ⟨l :: sorted, places⟩

/-- The segments between vertices, as the neighbours before and behind each. -/
structure Adjacency where
  before : Array (List Nat)
  behind : Array (List Nat)

/-- The neighbours of `n` vertices. -/
def adjacency (n : Nat) (segments : List (Nat × Nat)) : Adjacency :=
  segments.foldl
    (fun a (u, v) =>
      ⟨a.before.modify v (· ++ [u]), a.behind.modify u (· ++ [v])⟩)
    ⟨Array.replicate n [], Array.replicate n []⟩

/-- From the first layer to the last, by the neighbours before. -/
def sweepDown (a : Adjacency) (o : LayerOrder) : LayerOrder := reorderTail α a.before o

/-- From the last layer to the first, by the neighbours behind. -/
def sweepUp (a : Adjacency) (o : LayerOrder) : LayerOrder :=
  let swept := reorderTail α a.behind { o with layers := o.layers.reverse }
  { swept with layers := swept.layers.reverse }

/-- Sweeps, down and up in turn. -/
def sweeps (a : Adjacency) : Nat → LayerOrder → LayerOrder
  | 0, o => o
  | k + 1, o => sweeps a k (sweepUp α a (sweepDown α a o))

/-- Every layer in the order of its vertices' numbers. -/
def initialOrder (layerOf : List Nat) : LayerOrder :=
  let count := layerOf.foldl (fun m l => max m (l + 1)) 0
  let layers :=
    (List.range count).map
      (fun l => (layerOf.zipIdx.filter (fun v => v.1 = l)).map Prod.snd)
  ⟨layers, layers.foldl recordPlaces (Array.replicate layerOf.length 0)⟩

/-- The vertices of every layer in their final order. -/
def orderLayers (layerOf : List Nat) (segments : List (Nat × Nat)) : LayerOrder :=
  sweeps α (adjacency layerOf.length segments) 4 (initialOrder layerOf)

end

end Diagram
