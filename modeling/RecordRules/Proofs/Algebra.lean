import RecordRules.Proofs.Evaluation

/-!
The algebra of rules.  De Morgan's laws, distribution from the left and absorption hold on every
record, also where an operand errs: both sides reach the same operand first and stop at the same
one.  To exchange the operands is no such law.  It can trade a truth value for an error, but never
for the other truth value.
-/

namespace RecordRules

namespace Expr

/-- The predicates of the two expressions have the same result on every record, be it a truth value
or an error. -/
def Alike (a b : Expr) : Prop :=
  ∀ r, (Predicate.ofExpr a).evaluate r = (Predicate.ofExpr b).evaluate r

/-- What it does on a record to exchange the operands of a connective.  If there is a truth value in
both orders, it is the same.  It is lost to an error exactly if the first operand settles the whole
and the second errs, and it takes the place of an error exactly if it is the other way round. -/
structure Exchange (settling : Bool) (a b : Expr) (r : Record) : Prop where
  same_truth : ∀ t t',
    (Predicate.ofExpr (connective settling a b)).evaluate r = .ok t →
      (Predicate.ofExpr (connective settling b a)).evaluate r = .ok t' → t = t'
  truth_to_error_iff : ∀ t error,
    (Predicate.ofExpr (connective settling a b)).evaluate r = .ok t ∧
        (Predicate.ofExpr (connective settling b a)).evaluate r = .error error ↔
      t = settling ∧ (Predicate.ofExpr a).evaluate r = .ok settling ∧
        (Predicate.ofExpr b).evaluate r = .error error
  error_to_truth_iff : ∀ error t,
    (Predicate.ofExpr (connective settling a b)).evaluate r = .error error ∧
        (Predicate.ofExpr (connective settling b a)).evaluate r = .ok t ↔
      t = settling ∧ (Predicate.ofExpr a).evaluate r = .error error ∧
        (Predicate.ofExpr b).evaluate r = .ok settling

end Expr

/-! ### Laws of results -/

section Results

variable (settling : Bool) (first second third : Except EvalError Bool)

theorem map_not_connect : (connect settling first second).map (!·) =
    connect (!settling) (first.map (!·)) (second.map (!·)) := by
  rcases first with e | b
  · rfl
  · cases b <;> cases settling <;> rfl

/-- An operand in front can be given to both operands behind it, since it is reached first on both
sides and has the same result each time. -/
theorem connect_distrib : connect settling first (connect (!settling) second third) =
    connect (!settling) (connect settling first second) (connect settling first third) := by
  rcases first with e | b
  · rfl
  · cases b <;> cases settling <;> rfl

theorem connect_absorb :
    connect settling first (connect (!settling) first second) = first := by
  rcases first with e | b
  · rfl
  · cases b <;> cases settling <;> rfl

/-- A truth value comes from the first operand if that settles the whole, else from the second. -/
theorem connect_eq_ok_iff (t : Bool) : connect settling first second = .ok t ↔
    (t = settling ∧ first = .ok settling) ∨ (first = .ok (!settling) ∧ second = .ok t) := by
  rcases first with e | b
  · simp [connect]
  · cases b <;> cases settling <;> simp [connect, eq_comm]

theorem connect_comm (x y : Bool) :
    connect settling (.ok x) (.ok y) = connect settling (.ok y) (.ok x) := by
  cases x <;> cases y <;> cases settling <;> rfl

variable {settling first second}

/-- With a truth value in both orders, both operands have one. -/
theorem connect_comm_of_ok {t t' : Bool} (h : connect settling first second = .ok t)
    (h' : connect settling second first = .ok t') : t = t' := by
  rcases first with e | x
  · cases h
  rcases second with e | y
  · cases h'
  rw [connect_comm, h'] at h
  cases h
  rfl

theorem connect_ok_and_error_iff (t : Bool) (error : EvalError) :
    connect settling first second = .ok t ∧ connect settling second first = .error error ↔
      t = settling ∧ first = .ok settling ∧ second = .error error := by
  constructor
  · rintro ⟨htruth, herror⟩
    rcases (connect_eq_error_iff _ _ _ _).1 herror with hsecond | ⟨-, hfirst⟩
    · subst hsecond
      rcases (connect_eq_ok_iff _ _ _ _).1 htruth with ⟨ht, hfirst⟩ | ⟨-, hsecond⟩
      · exact ⟨ht, hfirst, rfl⟩
      · cases hsecond
    · subst hfirst
      cases htruth
  · rintro ⟨rfl, rfl, rfl⟩
    exact ⟨(connect_eq_ok_iff _ _ _ _).2 (.inl ⟨rfl, rfl⟩), rfl⟩

end Results

/-! ### Laws of expressions -/

namespace Expr

theorem alike_iff (a b : Expr) : a.Alike b ↔ ∀ r, a.walk r = b.walk r := by
  simp only [Alike, evaluate_eq_walk]

theorem walk_not (a : Expr) (r : Record) : (Expr.not a).walk r = (a.walk r).map (!·) := rfl

section Laws

variable (settling : Bool) (a b c : Expr)

theorem alike_not_connective : (Expr.not (connective settling a b)).Alike
    (connective (!settling) (.not a) (.not b)) := by
  rw [alike_iff]
  intro r
  simp only [walk_not, walk_connective, map_not_connect]

theorem alike_connective_distrib :
    (connective settling a (connective (!settling) b c)).Alike
      (connective (!settling) (connective settling a b) (connective settling a c)) := by
  rw [alike_iff]
  intro r
  simp only [walk_connective, ← connect_distrib]

theorem alike_connective_absorb :
    (connective settling a (connective (!settling) a b)).Alike a := by
  rw [alike_iff]
  intro r
  simp only [walk_connective, connect_absorb]

theorem exchange (r : Record) : Exchange settling a b r where
  same_truth t t' h h' := by
    rw [evaluate_eq_walk, walk_connective] at h h'
    exact connect_comm_of_ok h h'
  truth_to_error_iff t error := by
    simp only [evaluate_eq_walk, walk_connective]
    exact connect_ok_and_error_iff t error
  error_to_truth_iff error t := by
    simp only [evaluate_eq_walk, walk_connective]
    rw [and_comm, connect_ok_and_error_iff, and_comm (a := b.walk r = _)]

end Laws

/-- The laws that hold on every record, with errors: De Morgan's, distribution from the left and
absorption.  Operands of a connective cannot be exchanged in general: either connective has a truth
value in one order and an error in the other on some record.  But on no record do the two orders
have different truth values. -/
theorem laws_with_errors (a b c : Expr) :
    (Expr.not (.and a b)).Alike (.or (.not a) (.not b)) ∧
      (Expr.not (.or a b)).Alike (.and (.not a) (.not b)) ∧
      (Expr.and a (.or b c)).Alike (.or (.and a b) (.and a c)) ∧
      (Expr.or a (.and b c)).Alike (.and (.or a b) (.or a c)) ∧
      (Expr.and a (.or a b)).Alike a ∧
      (Expr.or a (.and a b)).Alike a ∧
      (∀ settling r, Exchange settling a b r) ∧
      ∀ settling, ∃ first second r error,
        (Predicate.ofExpr (connective settling first second)).evaluate r = .ok settling ∧
          (Predicate.ofExpr (connective settling second first)).evaluate r = .error error := by
  refine ⟨alike_not_connective false a b, alike_not_connective true a b,
    alike_connective_distrib false a b c, alike_connective_distrib true a b c,
    alike_connective_absorb false a b, alike_connective_absorb true a b,
    fun settling r => exchange settling a b r, ?_⟩
  intro settling
  have hexchange := exchange settling (.flag "present") (.flag "absent")
    (.ofList [("present", .bool settling)])
  exact ⟨_, _, _, .missingField "absent", (hexchange.truth_to_error_iff _ _).2 ⟨rfl, rfl, rfl⟩⟩

end Expr

end RecordRules
