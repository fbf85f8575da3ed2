import RecordRules.Proofs.Algebra
import RecordRules.Proofs.Checking

/-!
The two spellings of a flag.  A bare field asks what a comparison with true asks, and a negated bare
field what a comparison with false asks.  Wherever in a rule and however often one spelling takes
the place of the other, the predicate has the same results and names the same fields, and the same
schemas accept the rule.
-/

namespace RecordRules

namespace Expr

/-- The expressions that differ only in how they spell flags and denied flags, each in any number of
places anywhere in the tree. -/
inductive Respelled : Expr → Expr → Prop
  | refl (a : Expr) : Respelled a a
  | symm {a b : Expr} : Respelled a b → Respelled b a
  | trans {a b c : Expr} : Respelled a b → Respelled b c → Respelled a c
  | and {a a' b b' : Expr} : Respelled a a' → Respelled b b' → Respelled (.and a b) (.and a' b')
  | or {a a' b b' : Expr} : Respelled a a' → Respelled b b' → Respelled (.or a b) (.or a' b')
  | not {a a' : Expr} : Respelled a a' → Respelled (.not a) (.not a')
  | flag (field : String) : Respelled (.flag field) (.eq field (.bool true))
  | not_flag (field : String) : Respelled (.not (.flag field)) (.eq field (.bool false))

/-! ### The two spellings -/

/-- A comparison with a boolean fails as the bare field does, on a missing field and on a value of
another kind. -/
theorem walk_eq_bool (field : String) (b : Bool) (r : Record) :
    (Expr.eq field (.bool b)).walk r = ((Expr.flag field).walk r).map (· == b) := by
  rw [walk, walk]
  cases r.get? field with
  | none => rfl
  | some value =>
      cases value with
      | bool held => simp [Value.kind, Except.map, Bool.beq_eq_decide_eq]
      | int i => rfl
      | str text => rfl

theorem walk_flag (field : String) (r : Record) :
    (Expr.flag field).walk r = (Expr.eq field (.bool true)).walk r := by
  rw [walk_eq_bool]
  rcases (Expr.flag field).walk r with error | held
  · rfl
  · simp [Except.map]

theorem walk_not_flag (field : String) (r : Record) :
    (Expr.not (.flag field)).walk r = (Expr.eq field (.bool false)).walk r := by
  rw [walk_eq_bool, walk_not]
  rcases (Expr.flag field).walk r with error | held
  · rfl
  · simp [Except.map]

/-- A schema asks the same of both spellings: that the field is there and boolean. -/
theorem admits_eq_bool_iff (s : Schema) (field : String) (b : Bool) :
    s.Admits (.eq field (.bool b)) ↔ s.Admits (.flag field) := by
  constructor
  · rintro (⟨hf, hkind⟩ | _)
    exact .flag hf hkind.symm
  · rintro (_ | ⟨hf, hkind⟩)
    exact .eq hf hkind.symm

namespace Respelled

variable {a b : Expr}

/-- What is composed from the operands of a tree is the same in all spellings, if it is so for a
single flag and for a single denied flag. -/
theorem composed_eq {α : Type} (f : Expr → α) (conj disj : α → α → α) (neg : α → α)
    (hand : ∀ a b, f (.and a b) = conj (f a) (f b))
    (hor : ∀ a b, f (.or a b) = disj (f a) (f b))
    (hnot : ∀ a, f (.not a) = neg (f a))
    (hflag : ∀ field, f (.flag field) = f (.eq field (.bool true)))
    (hnot_flag : ∀ field, f (.not (.flag field)) = f (.eq field (.bool false)))
    (h : a.Respelled b) : f a = f b := by
  induction h with
  | refl a => rfl
  | symm _ ih => exact ih.symm
  | trans _ _ ih ih' => exact ih.trans ih'
  | and _ _ ih ih' => rw [hand, hand, ih, ih']
  | or _ _ ih ih' => rw [hor, hor, ih, ih']
  | not _ ih => rw [hnot, hnot, ih]
  | flag field => exact hflag field
  | not_flag field => exact hnot_flag field

theorem alike (h : a.Respelled b) : a.Alike b := by
  rw [alike_iff]
  intro r
  apply h.composed_eq (walk r) both either fun result => result.map (!·)
  · exact fun _ _ => rfl
  · exact fun _ _ => rfl
  · exact fun _ => rfl
  · exact fun field => walk_flag field r
  · exact fun field => walk_not_flag field r

theorem names_eq (h : a.Respelled b) : a.names = b.names := by
  apply h.composed_eq names (· ++ ·) (· ++ ·) id
  · exact fun _ _ => rfl
  · exact fun _ _ => rfl
  · exact fun _ => rfl
  · exact fun _ => rfl
  · exact fun _ => rfl

theorem admits_leaves_iff (h : a.Respelled b) (s : Schema) :
    (∀ leaf ∈ a.leaves, s.Admits leaf) ↔ ∀ leaf ∈ b.leaves, s.Admits leaf := by
  rw [← eq_iff_iff]
  apply h.composed_eq (fun e => ∀ leaf ∈ e.leaves, s.Admits leaf) And And id
  · exact fun _ _ => propext List.forall_mem_append
  · exact fun _ _ => propext List.forall_mem_append
  · exact fun _ => rfl
  · intro field
    simp only [leaves, List.forall_mem_singleton, admits_eq_bool_iff]
  · intro field
    simp only [leaves, List.forall_mem_singleton, admits_eq_bool_iff]

/-- Whatever texts the two expressions are given with, a schema accepts both or neither. -/
theorem accept_iff (h : a.Respelled b) (s : Schema) (text text' : String) :
    (∃ p, (Compiler.withSchema s).accept text a = .ok p) ↔
      ∃ p, (Compiler.withSchema s).accept text' b = .ok p := by
  rw [(Compiler.verdict_accept s text a).accepts_iff, h.admits_leaves_iff s,
    (Compiler.verdict_accept s text' b).accepts_iff]

/-- Expressions that differ only in the spelling of flags have the same result on every record, with
the same error where a flag is missing or not boolean.  Their predicates name the same fields, and
every compiler with a schema accepts both or neither, as expressions and as texts. -/
theorem interchangeable (h : a.Respelled b) :
    a.Alike b ∧ (Predicate.ofExpr a).fields = (Predicate.ofExpr b).fields ∧
      ∀ s : Schema,
        ((∃ p, (Compiler.withSchema s).compileExpr a = .ok p) ↔
          ∃ p, (Compiler.withSchema s).compileExpr b = .ok p) ∧
        ∀ text text', Expr.parse text = .ok a → Expr.parse text' = .ok b →
          ((∃ p, (Compiler.withSchema s).compile text = .ok p) ↔
            ∃ p, (Compiler.withSchema s).compile text' = .ok p) := by
  refine ⟨h.alike, congrArg List.eraseDups h.names_eq, ?_⟩
  intro s
  refine ⟨h.accept_iff s _ _, ?_⟩
  intro text text' hparse hparse'
  rw [Compiler.compile_of_parse _ hparse, Compiler.compile_of_parse _ hparse']
  exact h.accept_iff s text text'

/-- The double negation goes away in one spelling only, so the trees that are evaluated differ; the
mistyped flag behind it gives the same error, and the schema accepts the rule in both spellings. -/
theorem interchangeable_double_negation :
    let a := Expr.and (.not (.not (.flag "is_vip"))) (.flag "blacklisted")
    let b := Expr.and (.not (.eq "is_vip" (.bool false))) (.eq "blacklisted" (.bool true))
    let r := Record.ofList [("is_vip", .bool true), ("blacklisted", .int 1)]
    a.Respelled b ∧ a.normalForm ≠ b.normalForm ∧
      (Predicate.ofExpr b).evaluate r = .error (.typeMismatch "blacklisted" .boolean .integer) ∧
        ∃ p, (Compiler.withSchema .payments).compileExpr b = .ok p := by
  intro a b r
  have h : a.Respelled b := .and (.not (.not_flag "is_vip")) (.flag "blacklisted")
  have hmistyped : (Predicate.ofExpr a).evaluate r =
      .error (.typeMismatch "blacklisted" .boolean .integer) := by
    decide +kernel
  have haccepted : (Compiler.withSchema .payments).compileExpr a = .ok (.ofExpr a) := by
    decide +kernel
  obtain ⟨halike, -, hschema⟩ := interchangeable h
  exact ⟨h, by decide +kernel, (halike r).symm.trans hmistyped,
    (hschema .payments).1.1 ⟨_, haccepted⟩⟩

end Respelled

end Expr

end RecordRules
