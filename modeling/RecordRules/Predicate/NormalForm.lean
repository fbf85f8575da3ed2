import RecordRules.Expr

/-!
The form of a rule that is evaluated: chains of one operator are joined into one node with
many parts, and a double negation is gone.
-/

namespace RecordRules

/-- The tree that is evaluated. -/
inductive NormalForm where
  | eq (field : String) (value : Value)
  | flag (field : String)
  /-- All parts hold. -/
  | all (parts : List NormalForm)
  /-- Some part holds. -/
  | any (parts : List NormalForm)
  | not (operand : NormalForm)

namespace NormalForm

mutual

def same : NormalForm → NormalForm → Bool
  | .eq field value, .eq field' value' => field == field' && value == value'
  | .flag field, .flag field' => field == field'
  | .all parts, .all parts' => sameParts parts parts'
  | .any parts, .any parts' => sameParts parts parts'
  | .not operand, .not operand' => same operand operand'
  | _, _ => false

def sameParts : List NormalForm → List NormalForm → Bool
  | [], [] => true
  | part :: parts, part' :: parts' => same part part' && sameParts parts parts'
  | _, _ => false

end

mutual

theorem same_iff : ∀ p q : NormalForm, same p q = true ↔ p = q
  | .eq _ _, q => by cases q <;> simp [same]
  | .flag _, q => by cases q <;> simp [same]
  | .all parts, q => by
      cases q with
      | all parts' => simp [same, sameParts_iff parts parts']
      | _ => simp [same]
  | .any parts, q => by
      cases q with
      | any parts' => simp [same, sameParts_iff parts parts']
      | _ => simp [same]
  | .not operand, q => by
      cases q with
      | not operand' => simp [same, same_iff operand operand']
      | _ => simp [same]

theorem sameParts_iff : ∀ ps qs : List NormalForm, sameParts ps qs = true ↔ ps = qs
  | [], qs => by cases qs <;> simp [sameParts]
  | part :: parts, qs => by
      cases qs with
      | nil => simp [sameParts]
      | cons part' parts' =>
          simp [sameParts, same_iff part part', sameParts_iff parts parts']

end

instance : DecidableEq NormalForm := fun p q => decidable_of_iff _ (same_iff p q)

/-- The parts whose conjunction the tree is. -/
def conjuncts : NormalForm → List NormalForm
  | .all parts => parts
  | p => [p]

/-- The parts whose disjunction the tree is. -/
def disjuncts : NormalForm → List NormalForm
  | .any parts => parts
  | p => [p]

/-- The negation of a tree; of a negation, its operand. -/
def negate : NormalForm → NormalForm
  | .not operand => operand
  | p => .not p

end NormalForm

/-- The tree that is evaluated for an expression. -/
def Expr.normalForm : Expr → NormalForm
  | .eq field value => .eq field value
  | .flag field => .flag field
  | .and left right => .all (left.normalForm.conjuncts ++ right.normalForm.conjuncts)
  | .or left right => .any (left.normalForm.disjuncts ++ right.normalForm.disjuncts)
  | .not operand => operand.normalForm.negate

end RecordRules
