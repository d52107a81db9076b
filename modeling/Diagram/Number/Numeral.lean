import Diagram.Number.Digits

/-!
# Reading decimal text

Digits are read as natural numbers of any size, and only the value as a whole is
rounded, so a numeral of any length is read as the number nearest to it.
-/

namespace Diagram.Decimal

/-- The floating-point number nearest to `± m · 10 ^ e`; infinite beyond the range.
A value with its first digit more than 400 places from the point is decided by that
alone, so a large exponent costs nothing. -/
def nearestFloat (negative : Bool) (m : Nat) (e : Int) : Float :=
  let first : Int := (digits m).length + e
  let size :=
    if m = 0 ∨ first < -400 then 0
    else if 400 < first then 1 / 0
    else Float.ofScientific m (e < 0) e.natAbs
  if negative then -size else size

/-- Splits a sign off; whether it is a minus. -/
def splitSign : List Char → Bool × List Char
  | '-' :: rest => (true, rest)
  | '+' :: rest => (false, rest)
  | s => (false, s)

/-- The power of ten behind the digits of a numeral, where none means zero. -/
def power? : List Char → Option Int
  | [] => some 0
  | c :: rest =>
    let (negative, ds) := splitSign rest
    if (c = 'e' ∨ c = 'E') ∧ ds ≠ [] ∧ ds.all Char.isDigit then
      some (if negative then -(natOfDigits ds : Int) else natOfDigits ds)
    else none

/-- What is no sequence of digits and still a number: an infinity, or nothing at all. -/
def special? (negative : Bool) (s : List Char) : Option Float :=
  match String.ofList (s.map Char.toLower) with
  | "inf" | "infinity" => some (if negative then -1 / 0 else 1 / 0)
  | "nan" => some (0 / 0)
  | _ => none

/-- The number that a text writes: an optional sign, digits with at most one point
among or around them, and an optional power of ten; or the name of an infinity or of
what is not a number, in letters of any case. -/
def read? (text : String) : Option Float :=
  let (negative, s) := splitSign text.toList
  let whole := s.takeWhile Char.isDigit
  let (fraction, rest) :=
    match s.dropWhile Char.isDigit with
    | '.' :: rest => (rest.takeWhile Char.isDigit, rest.dropWhile Char.isDigit)
    | rest => ([], rest)
  if whole = [] ∧ fraction = [] then special? negative s
  else
    (power? rest).map (fun e =>
      nearestFloat negative (natOfDigits (whole ++ fraction)) (e - fraction.length))

end Diagram.Decimal
