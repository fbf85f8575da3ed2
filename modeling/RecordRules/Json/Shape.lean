import RecordRules.Json

/-!
Shapes of documents: names that stand for themselves, and structures, whose parts are given
by name in an object or by position in an array.
-/

namespace RecordRules

namespace Json

def string? : Json → Option String
  | .string units => StringUnit.decode? units
  | _ => none

/-- A name, which may also be the one member of an object, with the value null. -/
def variant? : Json → Option String
  | .string units => StringUnit.decode? units
  | .object [(units, .null)] => StringUnit.decode? units
  | _ => none

/-- The member of an object with this name.  The outer result is absent if there are two. -/
def unique? (members : List (String × Json)) (name : String) : Option (Option Json) :=
  match members.filter (·.1 = name) with
  | [] => some none
  | [member] => some (some member.2)
  | _ => none

/-- The parts of a structure with these names, so far as they are given.  An object with one
of the names twice is no such structure, nor is an array with more items than names; a closed
structure has no other names either. -/
def parts? (closed : Bool) (names : List String) : Json → Option (List (Option Json))
  | .array items =>
      if items.length ≤ names.length then
        some (items.map some ++ List.replicate (names.length - items.length) none)
      else
        none
  | .object members => do
      let members ← members.mapM fun (units, value) => do
        return (← StringUnit.decode? units, value)
      if closed && !members.all (names.contains ·.1) then
        none
      else
        names.mapM (unique? members)
  | _ => none

/-- What a part holds, or this value if the part is not given. -/
def orElse {α : Type} (read? : Json → Option α) (standard : α) : Option Json → Option α
  | some part => read? part
  | none => some standard

def ofMembers (members : List (String × Json)) : Json :=
  .object (members.map fun (name, value) => (StringUnit.encode name, value))

end Json

end RecordRules
