/-!
Decimal numbers as they are written.
-/

namespace RecordRules

/-- The parts of a written number: a sign, digits, digits behind a point, and a power of ten
with a sign of its own. -/
structure Numeral where
  negative : Bool
  whole : List Char
  fraction : Option (List Char)
  exponent : Option (Bool × List Char)
deriving DecidableEq

namespace Numeral

def ofInt (i : Int) : Numeral where
  negative := i < 0
  whole := Nat.toDigits 10 i.natAbs
  fraction := none
  exponent := none

def sign (negative : Bool) : List Char :=
  if negative then ['-'] else []

/-- The characters of the number.  A power of ten has a sign of its own also if it is positive. -/
def write (n : Numeral) : List Char :=
  let fraction :=
    match n.fraction with
    | none => []
    | some digits => '.' :: digits
  let exponent :=
    match n.exponent with
    | none => []
    | some (negative, digits) => 'e' :: (if negative then '-' else '+') :: digits
  sign n.negative ++ n.whole ++ fraction ++ exponent

end Numeral

end RecordRules
