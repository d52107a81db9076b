import Diagram.Json.Basic
import Diagram.Number.Digits

/-!
# Numbers in JSON

A number without point and power of ten is a whole number as long as it fits into
64 bits.  Every other number is a floating-point number that is put together in two
steps: its leading digits make a significand below `2 ^ 64`, behind which further
digits only count, and the significand is multiplied or divided by a power of ten.
Each step rounds, so a long number may come out next to the nearest one.

Only texts that come in are read in this way; a number in a value is a number already.
-/

namespace Diagram.Json

/-- The parts of a written number. -/
structure NumberText where
  negative : Bool
  /-- The digits before the point. -/
  whole : List Char
  /-- The digits behind the point, if there is one. -/
  fraction : Option (List Char)
  /-- The power of ten, if there is one. -/
  power : Option Int
  deriving DecidableEq, Repr

namespace NumberText

/-! ## Values -/

/-- What a significand stays below. -/
def significandLimit : Nat := 18446744073709551616

/-- Takes digits into a significand as long as it stays below the limit; the
significand and the digits that are left. -/
def gather : Nat → List Char → Nat × List Char
  | m, [] => (m, [])
  | m, c :: cs =>
    let next := 10 * m + (c.toNat - '0'.toNat)
    if next < significandLimit then gather next cs else (m, c :: cs)

/-- The floating-point number nearest to a power of ten. -/
def nearestPower (k : Nat) : Float := Float.ofScientific 1 false k

/-- The significand `m` times `10 ^ e`.  The largest power that is a number itself
is `10 ^ 308`, so a smaller exponent than `-308` takes two divisions, and below
`-616` nothing is left of any significand.  There is no answer beyond the range. -/
def scale? (m : Nat) (e : Int) : Option Float :=
  let x := Float.ofNat m
  if 308 < e then if m = 0 then some 0 else none
  else if 0 ≤ e then
    let y := x * nearestPower e.toNat
    if y.isFinite then some y else none
  else if -308 ≤ e then some (x / nearestPower (-e).toNat)
  else if -616 ≤ e then some (x / nearestPower 308 / nearestPower (-e - 308).toNat)
  else some 0

/-- A whole number of 64 bits; negative zero and what is too far below zero are
floating-point numbers. -/
def wholeNumber (negative : Bool) (m : Nat) : Json :=
  if !negative then int m
  else if 0 < m ∧ m ≤ 9223372036854775808 then int (-m)
  else float (-Float.ofNat m)

/-- The number that the parts stand for. -/
def value (t : NumberText) : Json :=
  let (m, dropped) := gather 0 t.whole
  if t.fraction.isNone && t.power.isNone && dropped.isEmpty then wholeNumber t.negative m
  else
    let fraction := t.fraction.getD []
    let (m, unused) := gather m fraction
    let taken := fraction.length - unused.length
    -- a digit of the whole part that was not taken counts up, one of the fraction that was, down
    match scale? m (t.power.getD 0 + dropped.length - taken) with
    | some x => float (if t.negative then -x else x)
    | none => unreadable

/-! ## Texts -/

/-- Digits at the front of a text. -/
def splitDigits (s : List Char) : List Char × List Char :=
  (s.takeWhile Char.isDigit, s.dropWhile Char.isDigit)

/-- The digits of a fraction, behind its point. -/
def splitFraction? : List Char → Option (Option (List Char) × List Char)
  | '.' :: rest =>
    let (ds, rest) := splitDigits rest
    if ds.isEmpty then none else some (some ds, rest)
  | rest => some (none, rest)

/-- A power of ten, behind its letter. -/
def splitPower? (s : List Char) : Option (Option Int × List Char) :=
  match s with
  | c :: rest =>
    if c = 'e' ∨ c = 'E' then
      let (negative, rest) :=
        match rest with
        | '-' :: rest => (true, rest)
        | '+' :: rest => (false, rest)
        | rest => (false, rest)
      let (ds, rest) := splitDigits rest
      let n : Int := Decimal.natOfDigits ds
      if ds.isEmpty then none else some (some (if negative then -n else n), rest)
    else some (none, s)
  | [] => some (none, [])

/-- The parts of a number at the front of a text, and what follows it.  No digit
stands behind a leading zero. -/
def split? (s : List Char) : Option (NumberText × List Char) := do
  let (negative, s) := match s with
    | '-' :: rest => (true, rest)
    | rest => (false, rest)
  let (whole, s) := splitDigits s
  if whole.isEmpty ∨ (whole.head? = some '0' ∧ 1 < whole.length) then none
  else
    let (fraction, s) ← splitFraction? s
    let (power, s) ← splitPower? s
    return ({ negative, whole, fraction, power }, s)

end NumberText

end Diagram.Json
