import Diagram.Layout.Separate

/-!
# The arrangement by distances

Nodes start on a circle.  Each in turn is moved to where, on the average of the
other nodes, its distances are those of the graph; nodes that no path joins should
be one hop further apart than any that a path does.
-/

namespace Diagram

variable {α : Type} [Metric α]

def fullTurn : α := Scalar.ofNat 2 * Metric.pi

/-- The weighted sum of the places that the other nodes want for a node, and the sum
of the weights. -/
structure Pull (α : Type) where
  x : α
  y : α
  weight : α

/-- Adds the place that the node at `q` wants for the node at `p`, at the distance
`d` from it. -/
def Pull.add (s : Pull α) (p q : Point α) (d : α) : Pull α :=
  let weight := Scalar.ofNat 1 / (d * d)
  let v := p.sub q
  let length := Metric.hypot v.x v.y
  let (ux, uy) :=
    if Scalar.ofNat 1 / Scalar.ofNat 1000000000 < length then (v.x / length, v.y / length)
    else (Scalar.zero, Scalar.zero)
  ⟨s.x + weight * (q.x + d * ux), s.y + weight * (q.y + d * uy), s.weight + weight⟩

/-- Moves the `i`th node, given the distances it should have. -/
def settle (ideal : Array (Array α)) (pos : Array (Point α)) (i : Nat) : Array (Point α) :=
  let row := ideal.getD i #[]
  let p := pos.getD i .origin
  let total := (List.range pos.size).foldl
    (fun (s : Pull α) j =>
      let d := row.getD j Scalar.zero
      -- a distance of zero would weigh infinitely much
      if i = j ∨ d ≤ Scalar.zero then s else s.add p (pos.getD j .origin) d)
    ⟨Scalar.zero, Scalar.zero, Scalar.zero⟩
  if Scalar.zero < total.weight then
    pos.setIfInBounds i ⟨total.x / total.weight, total.y / total.weight⟩
  else pos

/-- Rounds in which every node is moved once, as many as `fuel` says. -/
def settleAll (ideal : Array (Array α)) : Nat → Array (Point α) → Array (Point α)
  | 0, pos => pos
  | fuel + 1, pos => settleAll ideal fuel ((List.range pos.size).foldl (settle ideal) pos)

/-- The largest of some distances that exist. -/
def farthest (hops : List (Option Nat)) : Nat := (hops.filterMap id).foldl max 0

def stress (t : Topology α) (o : Options α) : Placement α :=
  let n := t.size
  let k := t.unit o
  let hops := (List.range n).map t.hopsFrom
  let longest := farthest hops.flatten
  let ideal :=
    (hops.map (fun row =>
      (row.map (fun h => Scalar.ofNat (h.getD (longest + 1)) * k)).toArray)).toArray
  let radius := Scalar.max (k * Scalar.ofNat n / fullTurn) k
  let start := (Array.range n).map (fun i =>
    let angle : α := fullTurn * Scalar.ofNat i / Scalar.ofNat n
    (⟨radius * Metric.cos angle, radius * Metric.sin angle⟩ : Point α))
  { centers := separate t.sizes (o.nodeSpacing / Scalar.ofNat 2) (settleAll ideal 100 start).toList
    bends := t.noBends }

end Diagram
