import RecordRules.Value

/-!
Rule expressions over named fields.
-/

namespace RecordRules

/-- The source tree of a rule. -/
inductive Expr where
  /-- The field holds this value. -/
  | eq (field : String) (value : Value)
  /-- The field holds the value true. -/
  | flag (field : String)
  | and (left right : Expr)
  | or (left right : Expr)
  | not (operand : Expr)
deriving DecidableEq

namespace Expr

/-- The fields at the leaves, left to right, one entry for each leaf. -/
def names : Expr → List String
  | .eq field _ => [field]
  | .flag field => [field]
  | .and left right => left.names ++ right.names
  | .or left right => left.names ++ right.names
  | .not operand => operand.names

/-- The fields that the expression refers to, each once, in order of first use. -/
def fields (e : Expr) : List String :=
  e.names.eraseDups

/-- The number of nodes on the longest path from the root; a leaf has depth one. -/
def depth : Expr → Nat
  | .eq _ _ => 1
  | .flag _ => 1
  | .and left right => 1 + max left.depth right.depth
  | .or left right => 1 + max left.depth right.depth
  | .not operand => 1 + operand.depth

def nodes : Expr → Nat
  | .eq _ _ => 1
  | .flag _ => 1
  | .and left right => 1 + left.nodes + right.nodes
  | .or left right => 1 + left.nodes + right.nodes
  | .not operand => 1 + operand.nodes

end Expr

end RecordRules
