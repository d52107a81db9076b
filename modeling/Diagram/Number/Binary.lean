import Diagram.Number.Scalar

/-!
# Binary floating-point coordinates

The coordinates the program runs on.  A finite value is `± m · 2 ^ e` with a
natural number `m`; whatever has to be decided exactly about it (its nearest
whole number, its digits) is decided in whole-number arithmetic on `m` and `e`.
-/

namespace Diagram

/-- The exact value of a floating-point number. -/
inductive Binary where
  /-- `± mantissa · 2 ^ exponent`. -/
  | finite (negative : Bool) (mantissa : Nat) (exponent : Int)
  /-- Beyond every finite number. -/
  | infinite (negative : Bool)
  /-- Not a number. -/
  | undefined
  deriving DecidableEq, Repr

namespace Binary

def isNegative : Float.Model.UnpackedFloat.Sign → Bool
  | .negative => true
  | .positive => false

/-- The exact value of `x`. -/
def ofFloat (x : Float) : Binary :=
  match x.toModel.unpack with
  | .infinity s => .infinite (isNegative s)
  | .notANumber => .undefined
  | .zero s => .finite (isNegative s) 0 0
  | .finite s m e _ => .finite (isNegative s) m e

/-- The natural number nearest to `m · 2 ^ e`, a half going up. -/
def nearestNat (m : Nat) (e : Int) : Nat :=
  match e with
  | .ofNat k => m <<< k
  | .negSucc k => (m + 1 <<< k) >>> (k + 1)

/-- The power of two behind the largest finite number. -/
def overflow : Int := ((1 <<< 1024 : Nat) : Int)

/-- The nearest whole number, a half going away from zero.  A value that is not a
number counts as zero, an infinite one as `overflow`. -/
def nearest : Binary → Int
  | .finite false m e => nearestNat m e
  | .finite true m e => -(nearestNat m e : Int)
  | .infinite false => overflow
  | .infinite true => -overflow
  | .undefined => 0

/-! ## The length of a vector -/

def powerOfTwo (k : Nat) : Float := Float.ofInt ((1 <<< k : Nat) : Int)

/-- The hypotenuse over two legs of moderate size, `a ≥ b ≥ 0`: the rounded root
of the sum of squares, corrected once by the error of its own square. -/
def hypotModerate (a b : Float) : Float :=
  -- the error is summed up from differences; in the squares themselves it would be lost
  let h := Float.sqrt (a * a + b * b)
  if h ≤ 2 * b then
    let delta := h - b
    let t₁ := a * (2 * delta - a)
    let t₂ := (delta - 2 * (a - b)) * delta
    h - (t₁ + t₂) / (2 * h)
  else
    let delta := h - a
    let t₁ := 2 * delta * (a - 2 * b)
    let t₂ := (4 * delta - b) * b + delta * delta
    h - (t₁ + t₂) / (2 * h)

/-- Whether the shorter leg is too short to change the hypotenuse. -/
def negligible (a b : Float) : Bool := b ≤ a / powerOfTwo 54

/-- The hypotenuse over two legs of any size.  Legs whose squares would overflow
or lose digits are scaled by a power of two first. -/
def hypot (x y : Float) : Float :=
  let u := x.abs
  let v := y.abs
  -- an infinite leg wins over one that is no number
  if u.isInf || v.isInf then 1 / 0
  else if u.isNaN || v.isNaN then 0 / 0
  else
    let a := if u < v then v else u
    let b := if u < v then u else v
    let scale := powerOfTwo 600
    if negligible a b then a + b
    else if powerOfTwo 511 < a then
      hypotModerate (a / scale) (b / scale) * scale
    else if b < 1 / powerOfTwo 459 then
      hypotModerate (a * scale) (b * scale) / scale
    else hypotModerate a b

end Binary

instance intCastFloat : IntCast Float := ⟨Float.ofInt⟩

instance : Metric Float where
  ltDecidable := inferInstance
  leDecidable := inferInstance
  isFinite := Float.isFinite
  nearest x := (Binary.ofFloat x).nearest
  hypot := Binary.hypot
  sin := Float.sin
  cos := Float.cos
  pi := 3.14159265358979323846

end Diagram
