import RecordRules.Expr.Reader
import RecordRules.Text.Place

/-!
Rule text as an expression, or the reason why it is none.
-/

namespace RecordRules

/-- The number of open parentheses and negations that may stand around a leaf. -/
def nestingLimit : Nat := 128

/-- Reads a whole text as one expression.  Blanks may surround it.  Unfolding stops here, since
on a text that is not known it would run through all levels of nesting. -/
@[irreducible]
def Expr.read (text : List Char) : Except Failure Expr :=
  match (expression (operand (nestingLimit + 1))).read text with
  | .error failure => .error failure
  | .ok (e, rest) =>
      match Lexeme.skipBlank rest with
      | [] => .ok e
      | rest => .error (.unexpected rest [])

/-- Why a text is no rule. -/
inductive ParseError where
  | tooDeep
  | unexpected (place : Place) (wanted : List Wanted)
deriving DecidableEq

def Wanted.label : Wanted → String
  | .fieldName => "field name"
  | .literal => "literal value"
  | .closing => "`)`"
  | .expression => "expression"

namespace ParseError

def ofFailure (text : List Char) : Failure → ParseError
  | .tooDeep => .tooDeep
  | .unexpected rest wanted => .unexpected (Place.ofRest text rest) wanted

/-- What would have fitted, in the order from the innermost description to the outermost. -/
def note : List Wanted → String
  | [] => ""
  | wanted => "expected " ++ ", ".intercalate (wanted.map Wanted.label)

def reason : ParseError → String
  | .tooDeep => s!"expression nested too deeply (limit {nestingLimit})"
  | .unexpected place wanted => place.picture (note wanted)

def message (e : ParseError) : String :=
  s!"parse error: {e.reason}"

end ParseError

/-- The expression that a rule text stands for. -/
def Expr.parse (text : String) : Except ParseError Expr :=
  (Expr.read text.toList).mapError (ParseError.ofFailure text.toList)

end RecordRules
