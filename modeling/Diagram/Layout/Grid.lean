import Diagram.Layout.Topology

/-!
# The grid arrangement

Nodes fill a grid row by row.  It has as many columns as the root of the number of
nodes, rounded up, and its cells are as wide as the widest node and as high as the
highest.
-/

namespace Diagram

variable {α : Type} [Scalar α]

/-- The least number whose square is at least `n`. -/
def ceilSqrt (n : Nat) : Nat := ((List.range (n + 1)).find? (fun c => n ≤ c * c)).getD n

def gridColumns (n : Nat) : Nat := max 1 (ceilSqrt n)

def grid (t : Topology α) (o : Options α) : Placement α :=
  let columns := gridColumns t.size
  let width := (t.sizes.map Prod.fst).foldl Scalar.max Scalar.zero
  let height := (t.sizes.map Prod.snd).foldl Scalar.max Scalar.zero
  { centers := (List.range t.size).map (fun i =>
      ⟨Scalar.ofNat (i % columns) * (width + o.nodeSpacing) + width / Scalar.ofNat 2,
        Scalar.ofNat (i / columns) * (height + o.nodeSpacing) + height / Scalar.ofNat 2⟩)
    bends := t.noBends }

end Diagram
