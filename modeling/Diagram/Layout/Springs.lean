import Diagram.Layout.Grid
import Diagram.Layout.Separate

/-!
# The arrangement by forces

Nodes start on a grid.  All push each other away, edges pull their ends together,
and every node moves along the sum of its forces, by steps that grow shorter.
-/

namespace Diagram

variable {α : Type} [Metric α]

/-- The vector from `b` to `a` and its length.  Points that lie on each other are
taken to be a little apart, the earlier to the left. -/
def separation (a b : Point α) (earlier : Bool) : Point α × α :=
  let d := a.sub b
  let length := Metric.hypot d.x d.y
  if length < Scalar.ofNat 1 / Scalar.ofNat 1000000 then
    let tenth : α := Scalar.ofNat 1 / Scalar.ofNat 10
    let d : Point α := ⟨if earlier then -tenth else tenth, tenth⟩
    (d, Metric.hypot d.x d.y)
  else (d, length)

/-- Adds opposite forces to two nodes. -/
def addForces (forces : Array (Point α)) (i j : Nat) (f : Point α) : Array (Point α) :=
  (forces.modify i (fun p => p.add f)).modify j (fun p => p.sub f)

/-- The push between two nodes. -/
def repel (k : α) (pos : Array (Point α)) (forces : Array (Point α)) (pair : Nat × Nat) :
    Array (Point α) :=
  let (i, j) := pair
  let (d, length) := separation (pos.getD i .origin) (pos.getD j .origin) (i < j)
  let push := k * k / length
  addForces forces i j ⟨d.x / length * push, d.y / length * push⟩

/-- The pull of an edge. -/
def attract (k : α) (pos : Array (Point α)) (forces : Array (Point α)) (link : Nat × Nat) :
    Array (Point α) :=
  let (s, t) := link
  if s = t then forces
  else
    let (d, length) := separation (pos.getD s .origin) (pos.getD t .origin) (s < t)
    let pull := length * length / k
    -- the target is pulled towards the source, and the source towards the target
    addForces forces t s ⟨d.x / length * pull, d.y / length * pull⟩

/-- A node moved along the sum of its forces, by at most the given step. -/
def moveAlong (limit : α) (p f : Point α) : Point α :=
  let length := Metric.hypot f.x f.y
  if Scalar.zero < length then
    let step := Scalar.min length limit
    ⟨p.x + f.x / length * step, p.y + f.y / length * step⟩
  else p

/-- Rounds of pushing and pulling, as many as `fuel` says. -/
def relaxForces (k cooling : α) (pairs links : List (Nat × Nat)) :
    Nat → α → Array (Point α) → Array (Point α)
  | 0, _, pos => pos
  | fuel + 1, temperature, pos =>
    let forces := pairs.foldl (repel k pos) (Array.replicate pos.size .origin)
    let forces := links.foldl (attract k pos) forces
    let pos := pos.zipWith (moveAlong temperature) forces
    relaxForces k cooling pairs links fuel (Scalar.max (temperature - cooling) (Scalar.ofNat 1)) pos

def springs (t : Topology α) (o : Options α) : Placement α :=
  let n := t.size
  let k := t.unit o
  let columns := gridColumns n
  let start := (Array.range n).map (fun i =>
    (⟨Scalar.ofNat (i % columns) * k, Scalar.ofNat (i / columns) * k⟩ : Point α))
  let relaxed := relaxForces k (k / Scalar.ofNat 300) (pairsBelow n) t.links 300 k start
  { centers := separate t.sizes (o.nodeSpacing / Scalar.ofNat 2) relaxed.toList
    bends := t.noBends }

end Diagram
