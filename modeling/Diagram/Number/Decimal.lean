import Diagram.Number.Binary
import Diagram.Number.Digits

/-!
# Decimal text of numbers

Numbers are written in three ways, all computed from the exact binary value in
whole-number arithmetic: with a fixed number of places, with the fewest digits
that still read back as the same number, and in that second form with an exponent
when the number is very large or very small.
-/

namespace Diagram.Decimal

/-- The whole number nearest to `num / den`; a half goes to the even neighbour. -/
def roundDiv (num den : Nat) : Nat :=
  let q := num / den
  let r := num % den
  if 2 * r < den then q
  else if den < 2 * r then q + 1
  else if q % 2 = 0 then q else q + 1

/-- `m · 2 ^ e` as a quotient of natural numbers. -/
def quotient (m : Nat) : Int → Nat × Nat
  | .ofNat k => (m <<< k, 1)
  | .negSucc k => (m, 1 <<< (k + 1))

/-- `n` units of the last of `places` decimal places, written out. -/
def withPlaces (n places : Nat) : String :=
  let ds := digits n
  let padded := List.replicate (places + 1 - ds.length) '0' ++ ds
  let whole := padded.take (padded.length - places)
  let fraction := padded.drop (padded.length - places)
  if places = 0 then String.ofList whole
  else String.ofList (whole ++ '.' :: fraction)

/-- A sign in front of a text. -/
def signed (negative : Bool) (text : String) : String :=
  if negative then "-" ++ text else text

/-- `x` with `places` digits after the point, rounded from its exact value. -/
def fixed (places : Nat) (x : Float) : String :=
  match Binary.ofFloat x with
  | .finite negative m e =>
    let (num, den) := quotient m e
    signed negative (withPlaces (roundDiv (num * powerOfTen places) den) places)
  | .infinite negative => signed negative "inf"
  | .undefined => "NaN"

/-! ## The fewest digits that read back -/

/-- Decimal digits, and the power of ten that their last digit counts. -/
structure Digits where
  /-- The digits as one natural number. -/
  value : Nat
  /-- The exponent of the last digit. -/
  exponent : Int
  deriving Repr

/-- The test of one decimal grid: the multiple of `10 ^ k` that is nearest to
`m · 2 ^ e` among the two around it, if it reads back as `m · 2 ^ e`. -/
def onGrid? (m : Nat) (e k : Int) : Option Nat :=
  -- both sides are multiplied by four, and by powers of two and ten until no fraction is left
  let up := powerOfTen k.toNat <<< (2 - e).toNat
  let down := powerOfTen (-k).toNat <<< (e - 2).toNat
  let value := 4 * m * down
  -- below a power of two the neighbour is half as far away
  let below := if m = 1 <<< 52 ∧ -1074 < e then 1 else 2
  let low := (4 * m - below) * down
  let high := (4 * m + 2) * down
  let inside (c : Nat) : Bool :=
    -- halfway between two numbers, the one with the even mantissa is read
    if m % 2 = 0 then low ≤ c * up ∧ c * up ≤ high else low < c * up ∧ c * up < high
  let c := value / up
  let rest := value % up
  let upper := c + 1
  if 0 < c ∧ inside c then
    if inside upper ∧ (up < 2 * rest ∨ (up = 2 * rest ∧ c % 2 = 1)) then some upper else some c
  else if inside upper then some upper
  else none

/-- The first grid with a hit, from `10 ^ k` downwards. -/
def search (m : Nat) (e : Int) : Nat → Int → Digits
  | 0, k => ⟨m, k⟩
  | fuel + 1, k =>
    match onGrid? m e k with
    | some c => ⟨c, k⟩
    | none => search m e fuel (k - 1)

/-- Zeros at the end move into the exponent. -/
def trim : Nat → Digits → Digits
  | 0, d => d
  | fuel + 1, d =>
    if d.value ≠ 0 ∧ d.value % 10 = 0 then trim fuel ⟨d.value / 10, d.exponent + 1⟩ else d

/-- The fewest decimal digits that read back as `m · 2 ^ e`, nearest to it. -/
def shortest (m : Nat) (e : Int) : Digits :=
  if m = 0 then ⟨0, 0⟩
  else
    let bits : Int := Nat.log2 m + e
    -- a bit is worth about 0.30103 digits, so the search starts above the first digit
    trim 20 (search m e 28 (bits * 30103 / 100000 + 2))

/-- Digits written without an exponent. -/
def Digits.plain (d : Digits) : String :=
  match d.exponent with
  | .ofNat k => String.ofList (digits d.value ++ List.replicate (if d.value = 0 then 0 else k) '0')
  | .negSucc k => withPlaces d.value (k + 1)

/-- The fewest digits that read back, without an exponent. -/
def plain (x : Float) : String :=
  match Binary.ofFloat x with
  | .finite negative m e => signed negative (shortest m e).plain
  | .infinite negative => signed negative "inf"
  | .undefined => "NaN"

/-- Digits with a point always, and with an exponent when the point would lie
more than sixteen digits from the start. -/
def Digits.scientific (d : Digits) : String :=
  let ds := digits d.value
  let point : Int := ds.length + d.exponent
  if 0 ≤ d.exponent ∧ point ≤ 16 then d.plain ++ ".0"
  else if -5 < point ∧ point ≤ 16 then d.plain
  else
    let mantissa :=
      match ds with
      | [] => ""
      | [c] => String.singleton c
      | c :: rest => String.ofList (c :: '.' :: rest)
    mantissa ++ "e" ++ toString (point - 1)

/-- The fewest digits that read back, with an exponent where that is shorter;
nothing for a value that is no number. -/
def scientific (x : Float) : Option String :=
  match Binary.ofFloat x with
  | .finite negative m e => some (signed negative (shortest m e).scientific)
  | _ => none

end Diagram.Decimal
