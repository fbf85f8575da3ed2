/-!
Values: booleans, 64-bit integers and strings.  Two values compare only within one kind.
-/

namespace RecordRules

/-- The kind of a value, and of the field that holds it. -/
inductive Kind where
  | boolean
  | string
  | integer
deriving DecidableEq

def Kind.label : Kind → String
  | .boolean => "boolean"
  | .string => "string"
  | .integer => "integer"

/-- A value of a record or a literal of a rule. -/
inductive Value where
  | bool (b : Bool)
  | int (i : Int64)
  | str (s : String)
deriving DecidableEq

namespace Value

def kind : Value → Kind
  | .bool _ => .boolean
  | .int _ => .integer
  | .str _ => .string

/-- Equality within one kind; values of different kinds do not compare. -/
def equals? : Value → Value → Option Bool
  | .bool a, .bool b => some (a == b)
  | .int a, .int b => some (a == b)
  | .str a, .str b => some (a == b)
  | _, _ => none

def asBool? : Value → Option Bool
  | .bool b => some b
  | _ => none

end Value

end RecordRules
