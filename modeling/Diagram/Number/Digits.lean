/-!
# Decimal digits

Natural numbers as sequences of decimal digits, the most significant first.
-/

namespace Diagram.Decimal

def digits (n : Nat) : List Char := Nat.toDigits 10 n

/-- The natural number that some digits write. -/
def natOfDigits (ds : List Char) : Nat :=
  ds.foldl (fun n c => 10 * n + (c.toNat - '0'.toNat)) 0

def powerOfTen (k : Nat) : Nat := Nat.pow 10 k

end Diagram.Decimal
