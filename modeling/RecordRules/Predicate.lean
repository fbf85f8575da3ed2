import RecordRules.Predicate.NormalForm
import RecordRules.Record

/-!
Predicates on records, and their evaluation.  Parts are evaluated from left to right, and
none after the one that settles the result; an error of a part that is reached is the result.
-/

namespace RecordRules

/-- Why a predicate has no truth value on a record. -/
inductive EvalError where
  | missingField (field : String)
  | typeMismatch (field : String) (expected found : Kind)
deriving DecidableEq

def EvalError.message : EvalError → String
  | .missingField field => s!"field '{field}' is missing from the record"
  | .typeMismatch field expected found =>
      s!"field '{field}' expected {expected.label}, got {found.label}"

namespace Record

/-- The value of a field that has to be there. -/
def find (r : Record) (field : String) : Except EvalError Value :=
  match r.get? field with
  | some value => .ok value
  | none => .error (.missingField field)

/-- Whether a field holds a value; its own value must be of the same kind. -/
def holdsValue (r : Record) (field : String) (value : Value) : Except EvalError Bool :=
  match r.find field with
  | .error e => .error e
  | .ok actual =>
      match actual.equals? value with
      | some b => .ok b
      | none => .error (.typeMismatch field value.kind actual.kind)

def holdsFlag (r : Record) (field : String) : Except EvalError Bool :=
  match r.find field with
  | .error e => .error e
  | .ok actual =>
      match actual.asBool? with
      | some b => .ok b
      | none => .error (.typeMismatch field .boolean actual.kind)

end Record

namespace NormalForm

mutual

def eval (r : Record) : NormalForm → Except EvalError Bool
  | .eq field value => r.holdsValue field value
  | .flag field => r.holdsFlag field
  | .all parts => evalAll r parts
  | .any parts => evalAny r parts
  | .not operand => (eval r operand).map (!·)

/-- Whether all parts hold; those after the first that does not are not evaluated. -/
def evalAll (r : Record) : List NormalForm → Except EvalError Bool
  | [] => .ok true
  | part :: parts =>
      match eval r part with
      | .error e => .error e
      | .ok false => .ok false
      | .ok true => evalAll r parts

/-- Whether some part holds; those after the first that does are not evaluated. -/
def evalAny (r : Record) : List NormalForm → Except EvalError Bool
  | [] => .ok false
  | part :: parts =>
      match eval r part with
      | .error e => .error e
      | .ok true => .ok true
      | .ok false => evalAny r parts

end

end NormalForm

/-- A rule in the form that is evaluated, with the fields that it refers to. -/
structure Predicate where
  tree : NormalForm
  fields : List String
deriving DecidableEq

namespace Predicate

def ofExpr (e : Expr) : Predicate :=
  ⟨e.normalForm, e.fields⟩

def evaluate (p : Predicate) (r : Record) : Except EvalError Bool :=
  p.tree.eval r

end Predicate

end RecordRules
