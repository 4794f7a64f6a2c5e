/-!
Natural numbers written in decimal digits, with an optional plus sign and any number of
leading zeros. A bound says which numbers count.
-/
namespace CBoundary.DecimalNumeral

/-- The number written by a list of digits, if each of them is one. -/
def valueFrom (value : Nat) : List Char → Option Nat
  | [] => some value
  | c :: rest =>
      if c.isDigit then valueFrom (10 * value + (c.toNat - '0'.toNat)) rest else none

/-- Reads a numeral below `bound`. -/
def read? (bound : Nat) (text : List Char) : Option Nat :=
  let digits := match text with
    | '+' :: rest => rest
    | _ => text
  if digits.isEmpty then none
  else (valueFrom 0 digits).filter (· < bound)

end CBoundary.DecimalNumeral
