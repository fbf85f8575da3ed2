import RecordRules.Expr
import RecordRules.Value.Literal

/-!
Expressions as rule text.  Every binary node stands in parentheses, so the text says how the
tree is shaped and nothing is left to precedence.
-/

namespace RecordRules

/-- Whether operators are written as words or by punctuation. -/
inductive Dialect where
  | keyword
  | symbolic
deriving DecidableEq

def Operator.between (op : Operator) (d : Dialect) : List Char :=
  match d with
  | .keyword => ' ' :: op.word ++ [' ']
  | .symbolic => ' ' :: op.symbol ++ [' ']

/-- A negation before its operand: the word is followed by a blank, the punctuation is not. -/
def Dialect.negation : Dialect → List Char
  | .keyword => Operator.not.word ++ [' ']
  | .symbolic => Operator.not.symbol

namespace Expr

/-- Binary nodes bring their own parentheses. -/
def isBinary : Expr → Bool
  | .and _ _ => true
  | .or _ _ => true
  | _ => false

/-- Writes the expression in front of `rest`. -/
def write (d : Dialect) : Expr → List Char → List Char
  | .eq field value, rest =>
      field.toList ++ ' ' :: '=' :: '=' :: ' ' :: (Literal.ofValue value ++ rest)
  | .flag field, rest => field.toList ++ rest
  | .and left right, rest =>
      '(' :: left.write d (Operator.and.between d ++ right.write d (')' :: rest))
  | .or left right, rest =>
      '(' :: left.write d (Operator.or.between d ++ right.write d (')' :: rest))
  | .not operand, rest =>
      d.negation ++
        if operand.isBinary then operand.write d rest
        else '(' :: operand.write d (')' :: rest)

/-- The rule text of an expression. -/
def render (d : Dialect) (e : Expr) : String :=
  String.ofList (e.write d [])

end Expr

end RecordRules
