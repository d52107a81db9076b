/-!
# Coordinates

Every length and position of a diagram is a value of one type of scalars.  The
program runs on binary floating-point numbers, but none of its geometry depends
on that: it uses the four operations, the two comparisons and whole numbers, so
the same definitions can be read over any ordered field, where arithmetic is
exact.
-/

namespace Diagram

/-- What diagram geometry asks of its coordinates. -/
class Scalar (α : Type) extends Add α, Sub α, Mul α, Div α, Neg α, LT α, LE α, IntCast α where
  /-- Strict comparison is decided. -/
  ltDecidable : DecidableLT α
  /-- Comparison is decided. -/
  leDecidable : DecidableLE α
  /-- Whether the value is a number of ordinary magnitude. -/
  isFinite : α → Bool
  /-- The nearest whole number, a half going away from zero.  A value of more than
  ordinary magnitude is far beyond every number of 64 bits. -/
  nearest : α → Int

attribute [reducible, instance] Scalar.ltDecidable Scalar.leDecidable

/-- A scalar type with lengths of vectors and the two functions of the circle. -/
class Metric (α : Type) extends Scalar α where
  /-- The length of the vector with the two given components. -/
  hypot : α → α → α
  /-- The sine of an angle in radians. -/
  sin : α → α
  /-- The cosine of an angle in radians. -/
  cos : α → α
  /-- Half the circumference of the unit circle. -/
  pi : α

namespace Scalar

variable {α : Type} [Scalar α]

/-- The whole number `n` as a scalar. -/
abbrev ofNat (n : Nat) : α := ((n : Int) : α)

abbrev zero : α := ofNat 0

abbrev half : α := ofNat 1 / ofNat 2

/-- The larger of two scalars; a value that does not even compare with itself
loses to the other. -/
def max (a b : α) : α := if a < b ∨ ¬ a ≤ a then b else a

/-- The smaller of two scalars; a value that does not even compare with itself
loses to the other. -/
def min (a b : α) : α := if b < a ∨ ¬ a ≤ a then b else a

def abs (a : α) : α := if a < zero then -a else a

/-- The nearest whole number, as a scalar. -/
def round (a : α) : α := if isFinite a then (nearest a : α) else a

/-- Neither is below the other: equality as the comparison sees it. -/
def same (a b : α) : Bool := decide (a ≤ b) && decide (b ≤ a)

end Scalar

end Diagram
