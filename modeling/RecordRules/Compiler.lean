import RecordRules.Expr.Parse
import RecordRules.Expr.Render
import RecordRules.Predicate
import RecordRules.Schema

/-!
Compilation of rule text into predicates.  A compiler with a schema also checks that every
leaf names a field of the schema and fits its kind.
-/

namespace RecordRules

/-- Why a rule was rejected.  The text is the rule as it was given. -/
inductive CompileError where
  | malformed (text : String) (cause : ParseError)
  | unknownField (text field : String)
  | typeMismatch (text field : String) (expected found : Kind)
deriving DecidableEq

namespace CompileError

def text : CompileError → String
  | .malformed text _ => text
  | .unknownField text _ => text
  | .typeMismatch text _ _ _ => text

def message : CompileError → String
  | .malformed text cause => s!"syntax error in '{text}': {cause.reason}"
  | .unknownField text field => s!"unknown field '{field}' in '{text}'"
  | .typeMismatch text field expected found =>
      s!"type mismatch in '{text}': field '{field}' expected {expected.label}, got {found.label}"

end CompileError

/-- What is wrong with a leaf under a schema. -/
inductive Misuse where
  | unknown (field : String)
  | mismatch (field : String) (expected found : Kind)
deriving DecidableEq

/-- The error that a misuse is in a rule of this text. -/
def Misuse.inText (text : String) : Misuse → CompileError
  | .unknown field => .unknownField text field
  | .mismatch field expected found => .typeMismatch text field expected found

/-- The first leaf, from the left, that does not fit the schema.  A comparison fits a field
of the kind of its literal, a bare field must be boolean. -/
def Expr.misuse? (s : Schema) : Expr → Option Misuse
  | .eq field value =>
      match s.field? field with
      | none => some (.unknown field)
      | some spec =>
          if value.kind = spec.kind then none
          else some (.mismatch field spec.kind value.kind)
  | .flag field =>
      match s.field? field with
      | none => some (.unknown field)
      | some spec =>
          if spec.kind = .boolean then none else some (.mismatch field .boolean spec.kind)
  | .and left right => (left.misuse? s).or (right.misuse? s)
  | .or left right => (left.misuse? s).or (right.misuse? s)
  | .not operand => operand.misuse? s

/-- A compiler, with the schema that rules have to fit if there is one. -/
structure Compiler where
  schema : Option Schema

namespace Compiler

def untyped : Compiler := ⟨none⟩

def withSchema (s : Schema) : Compiler := ⟨some s⟩

def misuse? (c : Compiler) (e : Expr) : Option Misuse :=
  c.schema.bind e.misuse?

/-- The predicate of an expression that was read from this text. -/
def accept (c : Compiler) (text : String) (e : Expr) : Except CompileError Predicate :=
  match c.misuse? e with
  | some misuse => .error (misuse.inText text)
  | none => .ok (.ofExpr e)

def compile (c : Compiler) (text : String) : Except CompileError Predicate :=
  match Expr.parse text with
  | .error cause => .error (.malformed text cause)
  | .ok e => c.accept text e

/-- The predicate of an expression.  Errors show it as keyword text. -/
def compileExpr (c : Compiler) (e : Expr) : Except CompileError Predicate :=
  c.accept (e.render .keyword) e

end Compiler

end RecordRules
