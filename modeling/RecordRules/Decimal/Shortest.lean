/-!
The shortest decimal that reads back as a double.  A double stands for every real in an
interval around it; of the decimals in the interval, the one with the fewest digits is
chosen, and of those the nearest.  All arithmetic is exact.
-/

namespace RecordRules

/-- The positive double `mantissa * 2 ^ exponent`. -/
structure Binary where
  mantissa : Nat
  exponent : Int
deriving DecidableEq

/-- The number `digits * 10 ^ exponent`. -/
structure Decimal where
  digits : Nat
  exponent : Int
deriving DecidableEq

/-- Which of two decimals is taken if both are equally near. -/
inductive Tie where
  | up
  | even
deriving DecidableEq

namespace Binary

def leastExponent : Int := -1074

/-- The mantissa and exponent of a finite double, from its bits without the sign. -/
def ofBits (bits : Nat) : Binary :=
  if bits < Nat.pow 2 52 then
    ⟨bits, leastExponent⟩
  else
    ⟨Nat.pow 2 52 + bits % Nat.pow 2 52, leastExponent + (bits / Nat.pow 2 52 - 1 : Nat)⟩

/-- Whether the interval includes its ends: a real halfway between two doubles goes to the
one whose mantissa is even. -/
def closed (b : Binary) : Bool :=
  b.mantissa % 2 = 0

/-- The lower end of the interval, in quarters of the last place.  Below a power of two the
doubles are twice as dense. -/
def lowQuarters (b : Binary) : Nat :=
  if b.mantissa = Nat.pow 2 52 ∧ b.exponent ≠ leastExponent then 4 * b.mantissa - 1
  else 4 * b.mantissa - 2

def highQuarters (b : Binary) : Nat :=
  4 * b.mantissa + 2

end Binary

/-- How quarters of the last place of a double compare with steps of a decimal grid: so many
quarters times `num` are so many steps times `den`. -/
structure Grid where
  num : Nat
  den : Nat

namespace Grid

/-- The grid of the multiples of `10 ^ step` beside a double. -/
def of (b : Binary) (step : Int) : Grid where
  num := Nat.pow 2 (b.exponent - 2).toNat * Nat.pow 10 (-step).toNat
  den := Nat.pow 2 (2 - b.exponent).toNat * Nat.pow 10 step.toNat

/-- Whether a point of the grid lies in the interval of the double. -/
def holds (g : Grid) (b : Binary) (point : Nat) : Bool :=
  let low := b.lowQuarters * g.num
  let high := b.highQuarters * g.num
  let p := point * g.den
  if b.closed then low ≤ p && p ≤ high else low < p && p < high

/-- The point of the grid in the interval of the double that is nearest to the double, if
there is one.  It is one of the two neighbours of the double. -/
def nearest? (g : Grid) (tie : Tie) (b : Binary) : Option Nat :=
  let value := 4 * b.mantissa * g.num
  let below := value / g.den
  let toBelow := value - below * g.den
  let toAbove := (below + 1) * g.den - value
  match g.holds b below, g.holds b (below + 1) with
  | true, true =>
      if toBelow < toAbove then some below
      else if toAbove < toBelow then some (below + 1)
      else match tie with
        | .up => some (below + 1)
        | .even => some (if below % 2 = 0 then below else below + 1)
  | true, false => some below
  | false, true => some (below + 1)
  | false, false => none

end Grid

namespace Decimal

/-- The number of decimal digits of a positive number. -/
def length (n : Nat) : Nat :=
  (Nat.toDigits 10 n).length

/-- The power of ten of the leading digit of a positive double. -/
def leading (b : Binary) : Int :=
  let num := b.mantissa * Nat.pow 2 b.exponent.toNat
  let den := Nat.pow 2 (-b.exponent).toNat
  if den ≤ num then
    (length (num / den) : Int) - 1
  else
    Int.negOfNat (length ((den + num - 1) / num - 1))

def dropZero (d : Decimal) : Decimal :=
  if d.digits % 10 = 0 then ⟨d.digits / 10, d.exponent + 1⟩ else d

/-- The nearest decimal of at most `count` digits that reads back as the double. -/
def ofCount? (tie : Tie) (b : Binary) (count : Nat) : Option Decimal :=
  let step := leading b - count + 1
  ((Grid.of b step).nearest? tie b).map fun point => ⟨point, step⟩

/-- The shortest decimal that reads back as the double.  Seventeen digits always do.  The
first count of digits that suffices leaves a zero at the end only where one digit was rounded
up to ten. -/
def shortest (tie : Tie) (b : Binary) : Decimal :=
  let found := (List.range 17).findSome? fun i => ofCount? tie b (i + 1)
  dropZero (found.getD ⟨0, 0⟩)

end Decimal

end RecordRules
