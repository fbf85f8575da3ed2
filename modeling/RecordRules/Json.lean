import RecordRules.Decimal.Numeral

/-!
JSON documents as they are written.  Numbers and escapes are kept as they stand, so a part of
a document that nobody asks for is never found to be out of range.
-/

namespace RecordRules

/-- A character of a string, or a UTF-16 unit that is written by its number. -/
inductive StringUnit where
  | char (c : Char)
  | unit (u : Nat)
deriving DecidableEq

inductive Json where
  | null
  | bool (b : Bool)
  | number (n : Numeral)
  | string (units : List StringUnit)
  | array (items : List Json)
  | object (members : List (List StringUnit × Json))

namespace StringUnit

/-- The first unit of a pair of units that stand for one character. -/
def isLeading (u : Nat) : Bool :=
  0xD800 ≤ u && u < 0xDC00

/-- The second unit of such a pair. -/
def isTrailing (u : Nat) : Bool :=
  0xDC00 ≤ u && u < 0xE000

def ofPair (leading trailing : Nat) : Char :=
  Char.ofNat (0x10000 + (leading - 0xD800) * 0x400 + (trailing - 0xDC00))

/-- The characters of a string, behind those in `found`, last first.  A unit of a pair must
not stand alone. -/
def decodeBehind? (found : List Char) : List StringUnit → Option (List Char)
  | [] => some found.reverse
  | .char c :: units => decodeBehind? (c :: found) units
  | .unit u :: .unit v :: units =>
      if isLeading u && isTrailing v then decodeBehind? (ofPair u v :: found) units
      else if isLeading u || isTrailing u then none
      else decodeBehind? (Char.ofNat u :: found) (.unit v :: units)
  | .unit u :: units =>
      if isLeading u || isTrailing u then none
      else decodeBehind? (Char.ofNat u :: found) units

def decode? (units : List StringUnit) : Option String :=
  (decodeBehind? [] units).map String.ofList

/-- How a character is put into a string: a control character without a short escape goes by
its number. -/
def ofChar (c : Char) : StringUnit :=
  if c.toNat < 0x20 && !(['\x08', '\t', '\n', '\x0c', '\r'].contains c) then .unit c.toNat
  else .char c

def encode (s : String) : List StringUnit :=
  s.toList.map ofChar

end StringUnit

namespace Json

def ofString (s : String) : Json :=
  .string (StringUnit.encode s)

def ofInt (i : Int) : Json :=
  .number (Numeral.ofInt i)

end Json

end RecordRules
