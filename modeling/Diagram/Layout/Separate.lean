import Diagram.Layout.Topology

/-!
# Pushing boxes apart

Two boxes that overlap, or come closer than a gap, are moved apart along the axis
that needs the smaller move, half of it each.  All pairs are gone through again
until none is moved, at most a hundred times.
-/

namespace Diagram

variable {α : Type} [Scalar α]

/-- The pairs of numbers below `n`, the smaller first, in order. -/
def pairsBelow (n : Nat) : List (Nat × Nat) :=
  (List.range n).flatMap (fun i => (List.range' (i + 1) (n - i - 1)).map (i, ·))

/-- A push away from a neighbour: backwards when it lies behind. -/
def directed (d push : α) : α :=
  push * (if d < Scalar.zero then -Scalar.ofNat 1 else Scalar.ofNat 1)

/-- The centres of two boxes after they have been pushed apart; nothing when they
are apart already. -/
def pushApart? (gap : α) (a b : Point α) (s t : α × α) : Option (Point α × Point α) :=
  let needX := (s.1 + t.1) / Scalar.ofNat 2 + gap
  let needY := (s.2 + t.2) / Scalar.ofNat 2 + gap
  let d := b.sub a
  let overX := needX - Scalar.abs d.x
  let overY := needY - Scalar.abs d.y
  -- boxes that are apart on one axis may share any part of the other
  if overX ≤ Scalar.zero ∨ overY ≤ Scalar.zero then none
  else if overX < overY then
    let push := directed d.x (overX / Scalar.ofNat 2)
    some (⟨a.x - push, a.y⟩, ⟨b.x + push, b.y⟩)
  else
    let push := directed d.y (overY / Scalar.ofNat 2)
    some (⟨a.x, a.y - push⟩, ⟨b.x, b.y + push⟩)

/-- One pair of boxes; the flag tells whether any box has been moved. -/
def separatePair (sizes : Array (α × α)) (gap : α) (st : Array (Point α) × Bool)
    (pair : Nat × Nat) : Array (Point α) × Bool :=
  let (i, j) := pair
  match st.1[i]?, st.1[j]?, sizes[i]?, sizes[j]? with
  | some a, some b, some s, some t =>
    match pushApart? gap a b s t with
    | some (a, b) => ((st.1.setIfInBounds i a).setIfInBounds j b, true)
    | none => st
  | _, _, _, _ => st

/-- All pairs, as often as `fuel` allows and boxes are moved. -/
def separatePasses (sizes : Array (α × α)) (gap : α) (pairs : List (Nat × Nat)) :
    Nat → Array (Point α) → Array (Point α)
  | 0, centers => centers
  | fuel + 1, centers =>
    let (moved, any) := pairs.foldl (separatePair sizes gap) (centers, false)
    if any then separatePasses sizes gap pairs fuel moved else moved

/-- The centres of boxes, pushed apart. -/
def separate (sizes : List (α × α)) (gap : α) (centers : List (Point α)) : List (Point α) :=
  let n := min centers.length sizes.length
  (separatePasses sizes.toArray gap (pairsBelow n) 100 centers.toArray).toList

end Diagram
