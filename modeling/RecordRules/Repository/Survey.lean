import RecordRules.Rule

/-!
What one pass over rules finds for a record.
-/

namespace RecordRules

/-- The rules that hold, the number of rules evaluated, and the number of those that failed. -/
structure Survey where
  hits : List String
  evaluated : Nat
  failed : Nat
deriving DecidableEq

namespace Survey

def empty : Survey := ⟨[], 0, 0⟩

def visit (record : Record) (s : Survey) (rule : Rule) : Survey :=
  match rule.predicate.evaluate record with
  | .ok true => ⟨s.hits ++ [rule.id], s.evaluated + 1, s.failed⟩
  | .ok false => ⟨s.hits, s.evaluated + 1, s.failed⟩
  | .error _ => ⟨s.hits, s.evaluated + 1, s.failed + 1⟩

/-- What the rules do on a record, taken one after the other. -/
def ofRules (record : Record) (rules : List Rule) : Survey :=
  rules.foldl (visit record) empty

def summary (s : Survey) : String :=
  "hits: [" ++ ", ".intercalate s.hits ++ "]"
    ++ s!", evaluated: {s.evaluated}, failed: {s.failed}"

end Survey

end RecordRules
