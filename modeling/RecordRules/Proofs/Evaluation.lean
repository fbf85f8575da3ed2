import RecordRules.Compiler
import RecordRules.Proofs.Connective

/-!
The meaning of a rule is that of its source tree.  A tree is walked from left to right and up
to the operand that decides it; joining chains of one operator and dropping double negations
changes neither the truth value nor the error.
-/

namespace RecordRules

namespace Expr

/-- The truth value of a source tree on a record, or the first error on the way to it. -/
def walk (r : Record) : Expr → Except EvalError Bool
  | .eq field value =>
      match r.get? field with
      | none => .error (.missingField field)
      | some actual =>
          if actual.kind = value.kind then .ok (decide (actual = value))
          else .error (.typeMismatch field value.kind actual.kind)
  | .flag field =>
      match r.get? field with
      | none => .error (.missingField field)
      | some (.bool b) => .ok b
      | some actual => .error (.typeMismatch field .boolean actual.kind)
  | .and left right => both (left.walk r) (right.walk r)
  | .or left right => either (left.walk r) (right.walk r)
  | .not operand => (operand.walk r).map (!·)

/-- The truth value in ordinary logic, where a leaf holds if the field has just this value. -/
def truth (r : Record) : Expr → Bool
  | .eq field value => r.get? field = some value
  | .flag field => r.get? field = some (.bool true)
  | .and left right => left.truth r && right.truth r
  | .or left right => left.truth r || right.truth r
  | .not operand => !operand.truth r

def leaves : Expr → List Expr
  | .eq field value => [.eq field value]
  | .flag field => [.flag field]
  | .and left right => left.leaves ++ right.leaves
  | .or left right => left.leaves ++ right.leaves
  | .not operand => operand.leaves

end Expr

/-- Values compare if they are of one kind. -/
theorem Value.equals?_eq (a b : Value) :
    a.equals? b = if a.kind = b.kind then some (decide (a = b)) else none := by
  cases a <;> cases b <;> simp [Value.equals?, Value.kind, Bool.beq_eq_decide_eq]

namespace Record

theorem holdsValue_eq_walk (r : Record) (field : String) (value : Value) :
    r.holdsValue field value = (Expr.eq field value).walk r := by
  rw [holdsValue, find, Expr.walk]
  cases r.get? field with
  | none => rfl
  | some actual =>
      dsimp only
      rw [Value.equals?_eq]
      by_cases hkind : actual.kind = value.kind
      · rw [if_pos hkind, if_pos hkind]
      · rw [if_neg hkind, if_neg hkind]

theorem holdsFlag_eq_walk (r : Record) (field : String) :
    r.holdsFlag field = (Expr.flag field).walk r := by
  rw [holdsFlag, find, Expr.walk]
  cases r.get? field with
  | none => rfl
  | some actual => cases actual <;> rfl

end Record

/-! ### Lists of parts -/

namespace NormalForm

/-- The result of the connective over these parts. -/
def evalParts (r : Record) (settling : Bool) (parts : List NormalForm) : Except EvalError Bool :=
  match settling with
  | false => evalAll r parts
  | true => evalAny r parts

variable (r : Record) (settling : Bool)

theorem evalParts_nil : evalParts r settling [] = .ok (!settling) := by
  cases settling with
  | false => rw [evalParts, evalAll]; rfl
  | true => rw [evalParts, evalAny]; rfl

theorem evalParts_cons (part : NormalForm) (parts : List NormalForm) :
    evalParts r settling (part :: parts) =
      connect settling (eval r part) (evalParts r settling parts) := by
  cases settling with
  | false =>
      rw [evalParts, evalAll]
      rcases eval r part with e | _ | _ <;> rfl
  | true =>
      rw [evalParts, evalAny]
      rcases eval r part with e | _ | _ <;> rfl

/-- Splicing two lists of parts keeps the place where the walk over them stops. -/
theorem evalParts_append (parts more : List NormalForm) :
    evalParts r settling (parts ++ more) =
      connect settling (evalParts r settling parts) (evalParts r settling more) := by
  induction parts with
  | nil =>
      rw [List.nil_append, evalParts_nil]
      cases settling <;> rfl
  | cons part parts ih =>
      rw [List.cons_append, evalParts_cons, evalParts_cons, ih, connect_assoc]

theorem eval_node (parts : List NormalForm) :
    eval r (node settling parts) = evalParts r settling parts := by
  cases settling <;> rw [node, eval, evalParts]

theorem evalParts_partsOf (p : NormalForm) :
    evalParts r settling (p.partsOf settling) = eval r p := by
  rcases eq_node_or settling p with ⟨parts, rfl⟩ | hother
  · rw [partsOf_node, eval_node]
  · rw [partsOf_eq_singleton hother, evalParts_cons, evalParts_nil, connect_neutral]

theorem eval_negate (p : NormalForm) : eval r p.negate = (eval r p).map (!·) := by
  have hnot : ∀ operand, eval r (.not operand) = (eval r operand).map (!·) := by
    intro operand
    rw [eval]
  cases p with
  | not operand => rw [negate, hnot, map_not_map_not]
  | _ => exact hnot _

end NormalForm

/-! ### Trees -/

namespace Expr

theorem leaves_connective (settling : Bool) (left right : Expr) :
    (connective settling left right).leaves = left.leaves ++ right.leaves := by
  cases settling <;> rfl

theorem walk_connective (settling : Bool) (left right : Expr) (r : Record) :
    (connective settling left right).walk r =
      connect settling (left.walk r) (right.walk r) := by
  cases settling with
  | false => exact both_eq_connect _ _
  | true => exact either_eq_connect _ _

/-- Joining chains and dropping double negations keeps the result of every tree. -/
theorem eval_normalForm (r : Record) (e : Expr) : e.normalForm.eval r = e.walk r := by
  induction e using connective_induction with
  | eq field value =>
      rw [normalForm, NormalForm.eval]
      exact r.holdsValue_eq_walk field value
  | flag field =>
      rw [normalForm, NormalForm.eval]
      exact r.holdsFlag_eq_walk field
  | connective settling left right ihl ihr =>
      rw [normalForm_connective, NormalForm.eval_node, NormalForm.evalParts_append,
        NormalForm.evalParts_partsOf, NormalForm.evalParts_partsOf, ihl, ihr, walk_connective]
  | not operand ih => rw [normalForm, NormalForm.eval_negate, ih, walk]

theorem evaluate_eq_walk (e : Expr) (r : Record) : (Predicate.ofExpr e).evaluate r = e.walk r :=
  e.eval_normalForm r

theorem walk_eq_truth_of_eq {r : Record} {field : String} {value : Value} {b : Bool}
    (h : (Expr.eq field value).walk r = .ok b) : b = (Expr.eq field value).truth r := by
  rw [walk] at h
  rw [truth]
  cases hget : r.get? field with
  | none =>
      rw [hget] at h
      cases h
  | some actual =>
      rw [hget] at h
      dsimp only at h
      split at h
      · cases h
        simp
      · cases h

theorem walk_eq_truth_of_flag {r : Record} {field : String} {b : Bool}
    (h : (Expr.flag field).walk r = .ok b) : b = (Expr.flag field).truth r := by
  rw [walk] at h
  rw [truth]
  cases hget : r.get? field with
  | none =>
      rw [hget] at h
      cases h
  | some actual =>
      rw [hget] at h
      cases actual with
      | bool on =>
          cases h
          simp
      | int i => cases h
      | str s => cases h

/-- Where no leaf errs, the walk gives the truth value of ordinary logic. -/
theorem walk_eq_truth {r : Record} {e : Expr}
    (h : ∀ leaf ∈ e.leaves, ∃ b, leaf.walk r = .ok b) : e.walk r = .ok (e.truth r) := by
  induction e with
  | eq field value =>
      obtain ⟨b, hb⟩ := h _ (List.mem_singleton_self _)
      rw [hb, walk_eq_truth_of_eq hb]
  | flag field =>
      obtain ⟨b, hb⟩ := h _ (List.mem_singleton_self _)
      rw [hb, walk_eq_truth_of_flag hb]
  | and left right ihl ihr | or left right ihl ihr =>
      rw [leaves, List.forall_mem_append] at h
      rw [walk, ihl h.1, ihr h.2, truth]
      cases left.truth r <;> rfl
  | not operand ih =>
      rw [walk, ih h, truth]
      rfl

end Expr

/-- A compiled rule means on every record what the tree of its text means. -/
theorem Compiler.evaluate_of_compile {c : Compiler} {text : String} {p : Predicate}
    (h : c.compile text = .ok p) :
    ∃ e, Expr.parse text = .ok e ∧ ∀ r, p.evaluate r = e.walk r := by
  rw [compile] at h
  cases hparse : Expr.parse text with
  | error cause =>
      rw [hparse] at h
      cases h
  | ok e =>
      rw [hparse] at h
      dsimp only [accept] at h
      split at h
      · cases h
      · cases h
        exact ⟨e, rfl, fun r => e.eval_normalForm r⟩

/-- The predicate of an expression gives on every record what the walk over the source tree
gives, the error included, and the truth value of ordinary logic where no leaf errs. -/
theorem evaluate_ofExpr (e : Expr) (r : Record) :
    (Predicate.ofExpr e).evaluate r = e.walk r ∧
      ((∀ leaf ∈ e.leaves, ∃ b, leaf.walk r = .ok b) →
        (Predicate.ofExpr e).evaluate r = .ok (e.truth r)) := by
  have hwalk : (Predicate.ofExpr e).evaluate r = e.walk r := e.eval_normalForm r
  refine ⟨hwalk, ?_⟩
  intro hleaves
  rw [hwalk]
  exact Expr.walk_eq_truth hleaves

/-- Two negations around a conjunction: the walk stops at the false flag, and on a record with
both fields the result is that of ordinary logic. -/
theorem evaluate_double_negation :
    (Predicate.ofExpr (.not (.not (.and (.flag "a") (.eq "b" (.int 1)))))).evaluate
        (.ofList [("a", .bool false)]) = .ok false ∧
      (Predicate.ofExpr (.not (.not (.and (.flag "a") (.eq "b" (.int 1)))))).evaluate
        (.ofList [("a", .bool true), ("b", .int 1)]) = .ok true := by
  constructor
  · exact (evaluate_ofExpr _ _).1
  · refine (evaluate_ofExpr _ _).2 ?_
    intro leaf hleaf
    rcases List.mem_cons.1 hleaf with rfl | hleaf
    · exact ⟨true, rfl⟩
    · rw [List.mem_singleton.1 hleaf]
      exact ⟨true, rfl⟩

end RecordRules
