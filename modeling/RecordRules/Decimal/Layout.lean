import RecordRules.Decimal.Numeral
import RecordRules.Decimal.Shortest

/-!
How a double is written: its shortest decimal, with a point or with a power of ten.
-/

namespace RecordRules

/-- The choices that a way to write doubles makes. -/
structure DecimalLayout where
  /-- Which of two equally near decimals is taken. -/
  tie : Tie
  /-- The least and the greatest power of ten of a leading digit for which the number is
  written out; with none given it always is. -/
  writtenOut : Option (Int × Int)
  /-- Whether an integer that is written out ends in a point and a zero. -/
  pointZero : Bool

namespace DecimalLayout

def zeros (n : Nat) : List Char :=
  List.replicate n '0'

/-- A decimal that is written out. -/
def positional (l : DecimalLayout) (negative : Bool) (d : Decimal) : Numeral :=
  let digits := Nat.toDigits 10 d.digits
  if 0 ≤ d.exponent then
    ⟨negative, digits ++ zeros d.exponent.toNat, if l.pointZero then some ['0'] else none, none⟩
  else
    let places := (-d.exponent).toNat
    let padded := zeros (places + 1 - digits.length) ++ digits
    ⟨negative, padded.take (padded.length - places),
      some (padded.drop (padded.length - places)), none⟩

/-- A decimal with one digit in front of the point and a power of ten. -/
def scientific (negative : Bool) (d : Decimal) : Numeral :=
  let digits := Nat.toDigits 10 d.digits
  let power := d.exponent + digits.length - 1
  ⟨negative, digits.take 1, if digits.length = 1 then none else some (digits.drop 1),
    some (power < 0, Nat.toDigits 10 power.natAbs)⟩

def decimal (l : DecimalLayout) (negative : Bool) (d : Decimal) : Numeral :=
  let power := d.exponent + Decimal.length d.digits - 1
  match l.writtenOut with
  | none => l.positional negative d
  | some (least, greatest) =>
      if least ≤ power ∧ power ≤ greatest then l.positional negative d
      else scientific negative d

/-- A finite double.  Zero keeps its sign. -/
def numeral (l : DecimalLayout) (x : Float) : Numeral :=
  let bits := x.toBits.toNat
  let negative := Nat.pow 2 63 ≤ bits
  let magnitude := bits % Nat.pow 2 63
  if magnitude = 0 then
    l.positional negative ⟨0, 0⟩
  else
    l.decimal negative (Decimal.shortest l.tie (Binary.ofBits magnitude))

/-- A double; the infinities and what is no number have names. -/
def text (l : DecimalLayout) (x : Float) : String :=
  if x.isNaN then "NaN"
  else if x.isInf then (if 0.0 < x then "inf" else "-inf")
  else String.ofList (l.numeral x).write

/-- Numbers in messages: always written out, an integer without a point. -/
def plain : DecimalLayout where
  tie := .up
  writtenOut := none
  pointZero := false

end DecimalLayout

end RecordRules
