import RecordRules.Compiler

/-!
Stored rules: a predicate with the text that it was compiled from, under an identifier.
-/

namespace RecordRules

structure Rule where
  id : String
  source : String
  predicate : Predicate
deriving DecidableEq

/-- Why a rule could not be stored. -/
structure Rejection where
  id : String
  cause : CompileError
deriving DecidableEq

namespace Rejection

def message (e : Rejection) : String :=
  s!"rule '{e.id}' failed to compile: {e.cause.message}"

end Rejection

namespace Rule

def label (rule : Rule) : String :=
  s!"{rule.id}: {rule.source}"

def compile (c : Compiler) (id text : String) : Except Rejection Rule :=
  match c.compile text with
  | .error cause => .error ⟨id, cause⟩
  | .ok predicate => .ok ⟨id, text, predicate⟩

/-- Whether the rule holds on a record.  A rule that fails to evaluate does not hold. -/
def holdsOn (rule : Rule) (record : Record) : Bool :=
  match rule.predicate.evaluate record with
  | .ok hit => hit
  | .error _ => false

end Rule

end RecordRules
