import Diagram.Layout.Separate
import Diagram.Layout.Stress

/-!
# The arrangement in rings

Nodes stand on circles around the first node that no other node points to, each at
the distance of its hops.  Nodes that no path joins to it share one more ring.
-/

namespace Diagram

variable {α : Type} [Metric α]

/-- The first node that no other node points to. -/
def ringRoot (n : Nat) (links : List (Nat × Nat)) : Nat :=
  ((List.range n).find? (fun i => links.all (fun (s, t) => t ≠ i || s = i))).getD 0

/-- The ring of every node. -/
def ringDepths (t : Topology α) : List Nat :=
  let hops := t.hopsFrom (ringRoot t.size t.links)
  hops.map (fun h => h.getD (farthest hops + 1))

/-- Where a node stands on its ring: its place and the number of places. -/
def ringPlace (depths : List Nat) (i : Nat) : Nat × Nat :=
  let d := depths.getD i 0
  -- the nodes of a ring are numbered in the order of the list
  (((depths.take i).filter (· = d)).length, (depths.filter (· = d)).length)

def radial (t : Topology α) (o : Options α) : Placement α :=
  let k := t.unit o
  let depths := ringDepths t
  let centers := (List.range t.size).map (fun i =>
    let (place, count) := ringPlace depths i
    let radius := Scalar.ofNat (depths.getD i 0) * k
    let angle := fullTurn * Scalar.ofNat place / Scalar.ofNat count - Metric.pi / Scalar.ofNat 2
    (⟨radius * Metric.cos angle, radius * Metric.sin angle⟩ : Point α))
  { centers := separate t.sizes (o.nodeSpacing / Scalar.ofNat 2) centers
    bends := t.noBends }

end Diagram
