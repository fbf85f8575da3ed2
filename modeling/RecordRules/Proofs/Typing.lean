import RecordRules.Proofs.Evaluation
import RecordRules.Proofs.Schema

/-!
What a schema promises about evaluation.  A compiler with a schema accepts exactly the trees
whose leaves fit it.  On a record whose values fit it as well, such a tree can fail only for a
field that is missing.
-/

namespace RecordRules

/-- A leaf that fits the schema: a comparison of a field with a literal of its kind, or a bare
boolean field. -/
inductive Schema.Admits (s : Schema) : Expr → Prop
  | eq {f : FieldDecl} {value : Value} :
      f ∈ s.fields → value.kind = f.kind → s.Admits (.eq f.name value)
  | flag {f : FieldDecl} : f ∈ s.fields → f.kind = .boolean → s.Admits (.flag f.name)

/-- A record that fits the schema: a field of the schema, where the record has it, holds a value
of its kind. -/
def Record.Fits (s : Schema) (r : Record) : Prop :=
  ∀ f ∈ s.fields, ∀ value ∈ r.get? f.name, value.kind = f.kind

instance (s : Schema) (r : Record) : Decidable (r.Fits s) :=
  inferInstanceAs (Decidable (∀ f ∈ s.fields, ∀ value ∈ r.get? f.name, value.kind = f.kind))

/-- What a predicate does on a record that fits: it fails only for one of its fields that is
missing there, and where none is, it has the truth value of the tree. -/
structure Predicate.Means (p : Predicate) (e : Expr) (r : Record) : Prop where
  no_mismatch : ∀ field expected found,
    p.evaluate r ≠ .error (.typeMismatch field expected found)
  missing : ∀ field, p.evaluate r = .error (.missingField field) →
    field ∈ p.fields ∧ r.get? field = none
  complete : (∀ field ∈ p.fields, (r.get? field).isSome) →
    p.evaluate r = .ok (e.truth r)

/-! ### The check of a tree -/

namespace Schema

variable (s : Schema) (field : String) (fits : Kind → Prop) [DecidablePred fits]
  (refusal : Kind → Misuse)

/-- What the check of a leaf over this field finds, where the leaf fits fields of some kinds and
others are refused. -/
def judge? : Option Misuse :=
  match s.field? field with
  | none => some (.unknown field)
  | some f => if fits f.kind then none else some (refusal f.kind)

theorem judge?_eq_none_iff :
    s.judge? field fits refusal = none ↔ ∃ f ∈ s.fields, f.name = field ∧ fits f.kind := by
  unfold judge?
  constructor
  · intro h
    cases hfield : s.field? field with
    | none => simp [hfield] at h
    | some f =>
        obtain ⟨hf, hname⟩ := (s.field?_eq_some_iff field f).1 hfield
        exact ⟨f, hf, hname, by simpa [hfield] using h⟩
  · rintro ⟨f, hf, hname, hfits⟩
    rw [(s.field?_eq_some_iff _ _).2 ⟨hf, hname⟩]
    exact if_pos hfits

theorem judge?_eq_some_iff (misuse : Misuse) :
    s.judge? field fits refusal = some misuse ↔
      (∀ f ∈ s.fields, f.name ≠ field) ∧ misuse = .unknown field ∨
        ∃ f ∈ s.fields, f.name = field ∧ ¬ fits f.kind ∧ misuse = refusal f.kind := by
  unfold judge?
  constructor
  · intro h
    cases hfield : s.field? field with
    | none =>
        simp only [hfield, Option.some.injEq] at h
        exact .inl ⟨(s.field?_eq_none_iff field).1 hfield, h.symm⟩
    | some f =>
        obtain ⟨hf, hname⟩ := (s.field?_eq_some_iff field f).1 hfield
        simp only [hfield, Option.ite_none_left_eq_some, Option.some.injEq] at h
        exact .inr ⟨f, hf, hname, h.1, h.2.symm⟩
  · rintro (⟨hunknown, rfl⟩ | ⟨f, hf, hname, hfits, rfl⟩)
    · rw [(s.field?_eq_none_iff field).2 hunknown]
    · rw [(s.field?_eq_some_iff _ _).2 ⟨hf, hname⟩]
      exact if_neg hfits

end Schema

namespace Expr

theorem misuse?_eq (s : Schema) (field : String) (value : Value) :
    (Expr.eq field value).misuse? s =
      s.judge? field (value.kind = ·) (.mismatch field · value.kind) := rfl

theorem misuse?_flag (s : Schema) (field : String) :
    (Expr.flag field).misuse? s = s.judge? field (· = .boolean) (.mismatch field .boolean ·) := rfl

theorem misuse?_eq_eq_none_iff (s : Schema) (field : String) (value : Value) :
    (Expr.eq field value).misuse? s = none ↔ s.Admits (.eq field value) := by
  rw [misuse?_eq, s.judge?_eq_none_iff]
  constructor
  · rintro ⟨f, hf, rfl, hkind⟩
    exact .eq hf hkind
  · rintro (⟨hf, hkind⟩ | _)
    exact ⟨_, hf, rfl, hkind⟩

theorem misuse?_flag_eq_none_iff (s : Schema) (field : String) :
    (Expr.flag field).misuse? s = none ↔ s.Admits (.flag field) := by
  rw [misuse?_flag, s.judge?_eq_none_iff]
  constructor
  · rintro ⟨f, hf, rfl, hkind⟩
    exact .flag hf hkind
  · rintro (_ | ⟨hf, hkind⟩)
    exact ⟨_, hf, rfl, hkind⟩

/-- The check finds nothing exactly if all leaves fit the schema. -/
theorem misuse?_eq_none_iff (s : Schema) (e : Expr) :
    e.misuse? s = none ↔ ∀ leaf ∈ e.leaves, s.Admits leaf := by
  induction e with
  | eq field value => simpa [leaves] using misuse?_eq_eq_none_iff s field value
  | flag field => simpa [leaves] using misuse?_flag_eq_none_iff s field
  | and left right ihl ihr | or left right ihl ihr =>
      rw [misuse?, leaves, Option.or_eq_none_iff, ihl, ihr, List.forall_mem_append]
  | not operand ih => exact ih

/-! ### Errors come from leaves -/

theorem names_eq_flatMap_leaves (e : Expr) : e.names = e.leaves.flatMap names := by
  induction e with
  | eq field value => rfl
  | flag field => rfl
  | and left right ihl ihr | or left right ihl ihr =>
      rw [names, leaves, List.flatMap_append, ihl, ihr]
  | not operand ih => exact ih

theorem mem_fields_of_mem_leaves {e leaf : Expr} (hleaf : leaf ∈ e.leaves) {name : String}
    (hname : name ∈ leaf.names) : name ∈ e.fields := by
  rw [fields, List.mem_eraseDups, names_eq_flatMap_leaves]
  exact List.mem_flatMap.2 ⟨leaf, hleaf, hname⟩

/-- A walk fails only as one of the leaves does. -/
theorem exists_leaf_of_walk_eq_error {r : Record} {e : Expr} {error : EvalError}
    (h : e.walk r = .error error) : ∃ leaf ∈ e.leaves, leaf.walk r = .error error := by
  induction e using connective_induction with
  | eq field value | flag field => exact ⟨_, List.mem_singleton_self _, h⟩
  | connective settling left right ihl ihr =>
      rw [walk_connective, connect_eq_error_iff] at h
      rw [leaves_connective]
      rcases h with h | ⟨-, h⟩
      · obtain ⟨leaf, hleaf, herror⟩ := ihl h
        exact ⟨leaf, List.mem_append_left _ hleaf, herror⟩
      · obtain ⟨leaf, hleaf, herror⟩ := ihr h
        exact ⟨leaf, List.mem_append_right _ hleaf, herror⟩
  | not operand ih =>
      rw [walk] at h
      rcases hoperand : operand.walk r with error' | b
      · rw [hoperand] at h
        exact ih (hoperand.trans h)
      · rw [hoperand] at h
        cases h

end Expr

/-- On a record that fits, a leaf that fits fails only because its field is missing. -/
theorem Schema.Admits.walk_eq_error {s : Schema} {leaf : Expr} (hleaf : s.Admits leaf)
    {r : Record} (hr : r.Fits s) {error : EvalError} (h : leaf.walk r = .error error) :
    ∃ field ∈ leaf.names, error = .missingField field ∧ r.get? field = none := by
  rcases hleaf with @⟨f, value, hf, hkind⟩ | @⟨f, hf, hkind⟩
  · rw [Expr.walk] at h
    cases hget : r.get? f.name with
    | none =>
        rw [hget] at h
        cases h
        exact ⟨_, List.mem_singleton_self _, rfl, hget⟩
    | some actual =>
        have hactual : actual.kind = value.kind := (hr f hf actual hget).trans hkind.symm
        rw [hget] at h
        simp [hactual] at h
  · rw [Expr.walk] at h
    cases hget : r.get? f.name with
    | none =>
        rw [hget] at h
        cases h
        exact ⟨_, List.mem_singleton_self _, rfl, hget⟩
    | some actual =>
        have hactual : actual.kind = .boolean := (hr f hf actual hget).trans hkind
        rw [hget] at h
        cases actual with
        | bool b => cases h
        | int i | str text => cases hactual

/-- The predicate of a tree whose leaves fit means what the tree does on each record that fits. -/
theorem Predicate.means_ofExpr {s : Schema} {e : Expr} (he : ∀ leaf ∈ e.leaves, s.Admits leaf)
    {r : Record} (hr : r.Fits s) : (Predicate.ofExpr e).Means e r := by
  have hwalk : (Predicate.ofExpr e).evaluate r = e.walk r := e.evaluate_eq_walk r
  have herror : ∀ leaf ∈ e.leaves, ∀ error, leaf.walk r = .error error →
      ∃ field ∈ e.fields, error = .missingField field ∧ r.get? field = none := by
    intro leaf hleaf error h
    obtain ⟨field, hfield, rfl, hget⟩ := (he leaf hleaf).walk_eq_error hr h
    exact ⟨field, Expr.mem_fields_of_mem_leaves hleaf hfield, rfl, hget⟩
  constructor
  · intro field expected found h
    rw [hwalk] at h
    obtain ⟨leaf, hleaf, h⟩ := Expr.exists_leaf_of_walk_eq_error h
    obtain ⟨_, _, hcontra, _⟩ := herror leaf hleaf _ h
    cases hcontra
  · intro field h
    rw [hwalk] at h
    obtain ⟨leaf, hleaf, h⟩ := Expr.exists_leaf_of_walk_eq_error h
    obtain ⟨_, hfield, hsame, hget⟩ := herror leaf hleaf _ h
    cases hsame
    exact ⟨hfield, hget⟩
  · intro hpresent
    rw [hwalk]
    apply Expr.walk_eq_truth
    intro leaf hleaf
    cases h : leaf.walk r with
    | ok b => exact ⟨b, rfl⟩
    | error error =>
        obtain ⟨field, hfield, -, hget⟩ := herror leaf hleaf error h
        have hsome := hpresent field hfield
        rw [hget] at hsome
        cases hsome

namespace Compiler

/-- With a schema, an expression is accepted exactly if its leaves fit, and its predicate is then
that of the expression. -/
theorem accept_withSchema_eq_ok_iff (s : Schema) (text : String) (e : Expr) (p : Predicate) :
    (withSchema s).accept text e = .ok p ↔
      (∀ leaf ∈ e.leaves, s.Admits leaf) ∧ p = .ofExpr e := by
  rw [← Expr.misuse?_eq_none_iff]
  cases h : e.misuse? s with
  | none => simp [accept, misuse?, withSchema, h, eq_comm]
  | some misuse => simp [accept, misuse?, withSchema, h]

/-- What a compiler with a schema accepts, as text or as a tree, never fails for a value of a
wrong kind on a record that fits the schema: it fails only for one of its fields that the record
misses, and with all of them it has the truth value of its tree. -/
theorem means_of_accepted (s : Schema) (r : Record) (hr : r.Fits s) :
    (∀ text p, (withSchema s).compile text = .ok p →
        ∃ e, Expr.parse text = .ok e ∧ p.Means e r) ∧
      ∀ e p, (withSchema s).compileExpr e = .ok p → p.Means e r := by
  have haccept : ∀ text e p, (withSchema s).accept text e = .ok p → p.Means e r := by
    intro text e p h
    obtain ⟨hleaves, rfl⟩ := (accept_withSchema_eq_ok_iff s text e p).1 h
    exact Predicate.means_ofExpr hleaves hr
  constructor
  · intro text p h
    rw [compile] at h
    cases hparse : Expr.parse text with
    | error cause =>
        rw [hparse] at h
        cases h
    | ok e =>
        rw [hparse] at h
        exact ⟨e, rfl, haccept text e p h⟩
  · intro e p h
    exact haccept _ e p h

/-- A record without most of the fields of its schema settles a rule over two that it has. -/
theorem means_of_accepted_two_fields :
    let r := Record.ofList [("is_vip", .bool true), ("env", .str "test_env")]
    let e := Expr.and (.flag "is_vip") (.not (.eq "env" (.str "prod")))
    r.Fits .payments ∧
      (withSchema .payments).compile "is_vip and !(env == \"prod\")" = .ok (.ofExpr e) ∧
        (Predicate.ofExpr e).evaluate r = .ok (e.truth r) := by
  intro r e
  have hr : r.Fits .payments := by decide +kernel
  have hcompile : (withSchema .payments).compile "is_vip and !(env == \"prod\")" =
      .ok (.ofExpr e) := by
    decide +kernel
  have hparse : Expr.parse "is_vip and !(env == \"prod\")" = .ok e := by decide +kernel
  obtain ⟨e', hparse', hmeans⟩ := (means_of_accepted .payments r hr).1 _ _ hcompile
  cases hparse.symm.trans hparse'
  exact ⟨hr, hcompile, hmeans.complete (by decide +kernel)⟩

end Compiler

end RecordRules
