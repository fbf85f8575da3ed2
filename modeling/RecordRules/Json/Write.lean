import RecordRules.Json

/-!
JSON documents as text without blanks.
-/

namespace RecordRules

namespace StringUnit

def write : StringUnit → List Char
  | .char '"' => ['\\', '"']
  | .char '\\' => ['\\', '\\']
  | .char '\x08' => ['\\', 'b']
  | .char '\t' => ['\\', 't']
  | .char '\n' => ['\\', 'n']
  | .char '\x0c' => ['\\', 'f']
  | .char '\r' => ['\\', 'r']
  | .char c => [c]
  | .unit u =>
      ['\\', 'u', (u / 0x1000 % 16).digitChar, (u / 0x100 % 16).digitChar,
        (u / 0x10 % 16).digitChar, (u % 16).digitChar]

def writeString (units : List StringUnit) : List Char :=
  '"' :: units.flatMap write ++ ['"']

end StringUnit

namespace Json

mutual

def write : Json → List Char
  | .null => ['n', 'u', 'l', 'l']
  | .bool true => ['t', 'r', 'u', 'e']
  | .bool false => ['f', 'a', 'l', 's', 'e']
  | .number n => n.write
  | .string units => StringUnit.writeString units
  | .array [] => ['[', ']']
  | .array (item :: items) => '[' :: write item ++ writeItems items
  | .object [] => ['\x7b', '\x7d']
  | .object (member :: members) => '\x7b' :: writeMember member ++ writeMembers members

/-- The items of an array after the first, and its end. -/
def writeItems : List Json → List Char
  | [] => [']']
  | item :: items => ',' :: write item ++ writeItems items

def writeMember : List StringUnit × Json → List Char
  | (name, value) => StringUnit.writeString name ++ ':' :: write value

/-- The members of an object after the first, and its end. -/
def writeMembers : List (List StringUnit × Json) → List Char
  | [] => ['\x7d']
  | member :: members => ',' :: writeMember member ++ writeMembers members

end

end Json

end RecordRules
