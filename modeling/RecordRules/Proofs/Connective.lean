import RecordRules.Predicate

/-!
Conjunction and disjunction as one connective.  An operand settles a conjunction if it is false and
a disjunction if it is true, and what holds of both is said once, of the truth value that settles.
-/

namespace RecordRules

/-- Both results hold; the second counts only when the first is true. -/
def both : Except EvalError Bool → Except EvalError Bool → Except EvalError Bool
  | .ok true, second => second
  | .ok false, _ => .ok false
  | .error e, _ => .error e

/-- One of the results holds; the second counts only when the first is false. -/
def either : Except EvalError Bool → Except EvalError Bool → Except EvalError Bool
  | .ok false, second => second
  | .ok true, _ => .ok true
  | .error e, _ => .error e

/-- Conjunction and disjunction as one operation.  The second result counts only when the first is
neither an error nor the truth value that settles the whole: false for `both`, true for
`either`. -/
def connect (settling : Bool) : Except EvalError Bool → Except EvalError Bool →
    Except EvalError Bool
  | .ok b, second => if b = settling then .ok settling else second
  | .error e, _ => .error e

/-! ### Results -/

theorem both_eq_connect (first second : Except EvalError Bool) :
    both first second = connect false first second := by
  rcases first with e | _ | _ <;> rfl

theorem either_eq_connect (first second : Except EvalError Bool) :
    either first second = connect true first second := by
  rcases first with e | _ | _ <;> rfl

section Results

variable (settling : Bool) (first second third : Except EvalError Bool)

/-- A second operand with the other truth value leaves the result to the first. -/
theorem connect_neutral : connect settling first (.ok (!settling)) = first := by
  rcases first with e | b
  · rfl
  · cases b <;> cases settling <;> rfl

theorem connect_assoc : connect settling (connect settling first second) third =
    connect settling first (connect settling second third) := by
  rcases first with e | b
  · rfl
  · cases b <;> cases settling <;> rfl

/-- An error comes from the first operand, or from the second if the first leaves it to that. -/
theorem connect_eq_error_iff (error : EvalError) : connect settling first second = .error error ↔
    first = .error error ∨ (first = .ok (!settling) ∧ second = .error error) := by
  rcases first with e | b
  · simp [connect]
  · cases b <;> cases settling <;> simp [connect]

end Results

theorem map_not_map_not (first : Except EvalError Bool) :
    (first.map (!·)).map (!·) = first := by
  rcases first with e | _ | _ <;> rfl

/-! ### Expressions -/

namespace Expr

/-- The connective that is settled by an operand with this truth value. -/
def connective : Bool → Expr → Expr → Expr
  | false => .and
  | true => .or

@[elab_as_elim]
theorem connective_induction {motive : Expr → Prop}
    (eq : ∀ field value, motive (.eq field value)) (flag : ∀ field, motive (.flag field))
    (connective : ∀ settling left right, motive left → motive right →
      motive (connective settling left right))
    (not : ∀ operand, motive operand → motive (.not operand)) (e : Expr) : motive e := by
  induction e with
  | eq field value => exact eq field value
  | flag field => exact flag field
  | and left right ihl ihr => exact connective false left right ihl ihr
  | or left right ihl ihr => exact connective true left right ihl ihr
  | not operand ih => exact not operand ih

end Expr

/-! ### Normal forms -/

namespace NormalForm

/-- The node of the connective over these parts. -/
def node : Bool → List NormalForm → NormalForm
  | false => .all
  | true => .any

/-- The parts that the tree joins by the connective. -/
def partsOf (settling : Bool) (p : NormalForm) : List NormalForm :=
  match settling with
  | false => p.conjuncts
  | true => p.disjuncts

theorem partsOf_node (settling : Bool) (parts : List NormalForm) :
    (node settling parts).partsOf settling = parts := by
  cases settling <;> rfl

/-- A tree that is no node of the connective is the only part that it has under it. -/
theorem partsOf_eq_singleton {settling : Bool} {p : NormalForm}
    (h : ∀ parts, p ≠ node settling parts) : p.partsOf settling = [p] := by
  cases settling with
  | false =>
      cases p with
      | all parts => exact absurd rfl (h parts)
      | _ => rfl
  | true =>
      cases p with
      | any parts => exact absurd rfl (h parts)
      | _ => rfl

theorem eq_node_or (settling : Bool) (p : NormalForm) :
    (∃ parts, p = node settling parts) ∨ ∀ parts, p ≠ node settling parts := by
  by_cases h : ∃ parts, p = node settling parts
  · exact .inl h
  · exact .inr (not_exists.1 h)

@[elab_as_elim]
theorem node_induction {motive : NormalForm → Prop}
    (eq : ∀ field value, motive (.eq field value)) (flag : ∀ field, motive (.flag field))
    (node : ∀ settling parts, (∀ p ∈ parts, motive p) → motive (node settling parts))
    (not : ∀ operand, motive operand → motive (.not operand)) : ∀ p, motive p
  | .eq field value => eq field value
  | .flag field => flag field
  | .all parts => node false parts fun p _ => node_induction eq flag node not p
  | .any parts => node true parts fun p _ => node_induction eq flag node not p
  | .not operand => not operand (node_induction eq flag node not operand)

end NormalForm

namespace Expr

variable (settling : Bool) (left right : Expr)

theorem names_connective :
    (connective settling left right).names = left.names ++ right.names := by
  cases settling <;> rfl

theorem normalForm_connective : (connective settling left right).normalForm =
    .node settling (left.normalForm.partsOf settling ++ right.normalForm.partsOf settling) := by
  cases settling <;> rfl

end Expr

end RecordRules
