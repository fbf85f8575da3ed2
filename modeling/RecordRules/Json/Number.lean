import RecordRules.Json
import RecordRules.Value.Literal

/-!
What numbers of a document are worth, as integers and as doubles.
-/

namespace RecordRules

namespace Numeral

/-- The greatest integer that digits are gathered into. -/
def greatest : Nat := Nat.pow 2 64 - 1

/-- The integer that is written, if it is written without a point and without a power of ten
and fits 64 bits, with a sign or without.  Zero with a sign is no integer. -/
def integer? (n : Numeral) : Option Int :=
  match n.fraction, n.exponent with
  | none, none =>
      let magnitude := Nat.ofDigitChars 10 n.whole 0
      if n.negative then
        if 0 < magnitude ∧ magnitude ≤ Nat.pow 2 63 then some (-magnitude) else none
      else
        if magnitude ≤ greatest then some magnitude else none
  | _, _ => none

/-- Appends digits to a number while it fits 64 bits, and returns the digits that are left. -/
def gather (significand : Nat) : List Char → Nat × List Char
  | [] => (significand, [])
  | digit :: digits =>
      let next := Nat.ofDigitChars 10 [digit] significand
      if next ≤ greatest then gather next digits else (significand, digit :: digits)

def powerOfTen (power : Nat) : Float :=
  Float.ofScientific 1 false power

def greatestPower : Nat := 308

/-- Multiplies or divides by a power of ten, one division by the greatest power at a time.
There is no result beyond the doubles. -/
def scale? (x : Float) (power : Int) : Option Float :=
  if power.natAbs ≤ greatestPower then
    if 0 ≤ power then
      let scaled := x * powerOfTen power.natAbs
      if scaled.isInf then none else some scaled
    else
      some (x / powerOfTen power.natAbs)
  else if x == 0.0 then
    some x
  else if 0 ≤ power then
    none
  else
    scale? (x / powerOfTen greatestPower) (power + greatestPower)
termination_by power.natAbs
decreasing_by
  simp only [greatestPower] at *
  omega

/-- The double of the number without its sign.  The digits are gathered into 64 bits; of the
digits left over, those in front of the point only count, and those behind it are dropped.
What was gathered is then scaled.  A power of ten that does not fit 32 bits leaves zero or
nothing. -/
def magnitude? (n : Numeral) : Option Float :=
  let (whole, left) := gather 0 n.whole
  let fraction := n.fraction.getD []
  let (significand, dropped) := gather whole fraction
  let power : Int := (left.length : Int) - (fraction.length - dropped.length : Nat)
  let x := significand.toUInt64.toFloat
  match n.exponent with
  | none => scale? x power
  | some (negative, digits) =>
      let exponent := Nat.ofDigitChars 10 digits 0
      if exponent < Nat.pow 2 31 then
        scale? x (if negative then power - exponent else power + exponent)
      else if significand ≠ 0 ∧ !negative then
        none
      else
        some 0.0

def float? (n : Numeral) : Option Float :=
  n.magnitude?.map fun x => if n.negative then -x else x

end Numeral

namespace Json

def int64? : Json → Option Int64
  | .number n => n.integer?.bind Literal.int64?
  | _ => none

/-- The natural number of a document, if it fits 64 bits. -/
def natural? : Json → Option Nat
  | .number n =>
      match n.integer? with
      | some (.ofNat k) => some k
      | _ => none
  | _ => none

def float? : Json → Option Float
  | .number n => n.float?
  | _ => none

end Json

end RecordRules
