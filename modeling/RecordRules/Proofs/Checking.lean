import RecordRules.Proofs.Typing

/-!
What a compiler with a schema says of a rule.  It reads the text as every compiler does, and accepts
the rule if all leaves fit the schema, with the predicate that the rule has without one.  Otherwise
it names the first leaf, from the left, that does not fit.
-/

namespace RecordRules

/-- What is wrong with a leaf that does not fit the schema. -/
inductive Schema.Refuses (s : Schema) : Expr → Misuse → Prop
  | unknown_eq {field : String} {value : Value} : (∀ f ∈ s.fields, f.name ≠ field) →
      s.Refuses (.eq field value) (.unknown field)
  | unknown_flag {field : String} : (∀ f ∈ s.fields, f.name ≠ field) →
      s.Refuses (.flag field) (.unknown field)
  | mismatch_eq {f : FieldDecl} {value : Value} : f ∈ s.fields → value.kind ≠ f.kind →
      s.Refuses (.eq f.name value) (.mismatch f.name f.kind value.kind)
  | mismatch_flag {f : FieldDecl} : f ∈ s.fields → f.kind ≠ .boolean →
      s.Refuses (.flag f.name) (.mismatch f.name .boolean f.kind)

/-- The leaves of the tree up to one that does not fit the schema, and what is wrong with that. -/
def Expr.FirstMisuse (s : Schema) (e : Expr) (misuse : Misuse) : Prop :=
  ∃ before leaf after, e.leaves = before ++ leaf :: after ∧
    (∀ earlier ∈ before, s.Admits earlier) ∧ s.Refuses leaf misuse

/-- The outcome for a tree, written as this text, under the schema and beside the outcome without
one: the same predicate if all leaves fit, else the error of the first that does not. -/
structure Schema.Verdict (s : Schema) (text : String) (e : Expr)
    (unchecked checked : Except CompileError Predicate) : Prop where
  accepts_iff : (∃ p, checked = .ok p) ↔ ∀ leaf ∈ e.leaves, s.Admits leaf
  same_predicate : ∀ p, checked = .ok p → unchecked = .ok p
  error_iff : ∀ error, checked = .error error ↔
    ∃ misuse, e.FirstMisuse s misuse ∧ error = misuse.inText text

namespace Expr

/-! ### The first misuse -/

theorem eq_or_flag_of_mem_leaves {e leaf : Expr} (h : leaf ∈ e.leaves) :
    (∃ field value, leaf = .eq field value) ∨ ∃ field, leaf = .flag field := by
  induction e with
  | eq field value => exact .inl ⟨field, value, List.mem_singleton.1 h⟩
  | flag field => exact .inr ⟨field, List.mem_singleton.1 h⟩
  | and left right ihl ihr | or left right ihl ihr =>
      rcases List.mem_append.1 h with h | h
      · exact ihl h
      · exact ihr h
  | not operand ih => exact ih h

/-- The check goes through the leaves and stops at the first with a misuse. -/
theorem misuse?_eq_findSome? (s : Schema) (e : Expr) :
    e.misuse? s = e.leaves.findSome? (misuse? s) := by
  induction e with
  | eq field value | flag field => simp only [leaves, List.findSome?_singleton]
  | and left right ihl ihr | or left right ihl ihr =>
      simp only [misuse?, leaves, List.findSome?_append, ihl, ihr]
  | not operand ih => exact ih

theorem misuse?_eq_eq_some_iff (s : Schema) (field : String) (value : Value) (misuse : Misuse) :
    (Expr.eq field value).misuse? s = some misuse ↔ s.Refuses (.eq field value) misuse := by
  rw [misuse?_eq, s.judge?_eq_some_iff]
  constructor
  · rintro (⟨hunknown, rfl⟩ | ⟨f, hf, rfl, hkind, rfl⟩)
    · exact .unknown_eq hunknown
    · exact .mismatch_eq hf hkind
  · intro h
    cases h with
    | unknown_eq hunknown => exact .inl ⟨hunknown, rfl⟩
    | mismatch_eq hf hkind => exact .inr ⟨_, hf, rfl, hkind, rfl⟩

theorem misuse?_flag_eq_some_iff (s : Schema) (field : String) (misuse : Misuse) :
    (Expr.flag field).misuse? s = some misuse ↔ s.Refuses (.flag field) misuse := by
  rw [misuse?_flag, s.judge?_eq_some_iff]
  constructor
  · rintro (⟨hunknown, rfl⟩ | ⟨f, hf, rfl, hkind, rfl⟩)
    · exact .unknown_flag hunknown
    · exact .mismatch_flag hf hkind
  · intro h
    cases h with
    | unknown_flag hunknown => exact .inl ⟨hunknown, rfl⟩
    | mismatch_flag hf hkind => exact .inr ⟨_, hf, rfl, hkind, rfl⟩

/-- The check finds the first misuse, and no other. -/
theorem misuse?_eq_some_iff (s : Schema) (e : Expr) (misuse : Misuse) :
    e.misuse? s = some misuse ↔ e.FirstMisuse s misuse := by
  rw [misuse?_eq_findSome?, List.findSome?_eq_some_iff]
  have hleaf : ∀ leaf ∈ e.leaves, (leaf.misuse? s = some misuse ↔ s.Refuses leaf misuse) ∧
      (leaf.misuse? s = none ↔ s.Admits leaf) := by
    intro leaf hmem
    rcases eq_or_flag_of_mem_leaves hmem with ⟨field, value, rfl⟩ | ⟨field, rfl⟩
    · exact ⟨misuse?_eq_eq_some_iff s field value misuse, misuse?_eq_eq_none_iff s field value⟩
    · exact ⟨misuse?_flag_eq_some_iff s field misuse, misuse?_flag_eq_none_iff s field⟩
  constructor
  · rintro ⟨before, leaf, after, hsplit, hmisuse, hbefore⟩
    rw [hsplit, List.forall_mem_append, List.forall_mem_cons] at hleaf
    obtain ⟨hearlier, hhere, -⟩ := hleaf
    exact ⟨before, leaf, after, hsplit,
      fun earlier hmem => (hearlier earlier hmem).2.1 (hbefore earlier hmem), hhere.1.1 hmisuse⟩
  · rintro ⟨before, leaf, after, hsplit, hbefore, hmisuse⟩
    rw [hsplit, List.forall_mem_append, List.forall_mem_cons] at hleaf
    obtain ⟨hearlier, hhere, -⟩ := hleaf
    exact ⟨before, leaf, after, hsplit, hhere.1.2 hmisuse,
      fun earlier hmem => (hearlier earlier hmem).2.2 (hbefore earlier hmem)⟩

end Expr

/-! ### Compilers -/

theorem Misuse.inText_ne_malformed (misuse : Misuse) (text text' : String) (cause : ParseError) :
    misuse.inText text ≠ .malformed text' cause := by
  cases misuse with
  | unknown field => exact nofun
  | mismatch field expected found => exact nofun

namespace Compiler

theorem accept_withSchema_eq_error_iff (s : Schema) (text : String) (e : Expr)
    (error : CompileError) :
    (withSchema s).accept text e = .error error ↔
      ∃ misuse, e.FirstMisuse s misuse ∧ error = misuse.inText text := by
  simp only [← Expr.misuse?_eq_some_iff]
  cases h : e.misuse? s with
  | none => simp [accept, misuse?, withSchema, h]
  | some misuse => simp [accept, misuse?, withSchema, h, eq_comm]

theorem accept_untyped (text : String) (e : Expr) : untyped.accept text e = .ok (.ofExpr e) := rfl

theorem verdict_accept (s : Schema) (text : String) (e : Expr) :
    s.Verdict text e (untyped.accept text e) ((withSchema s).accept text e) where
  accepts_iff := by
    simp only [accept_withSchema_eq_ok_iff, exists_and_left, exists_eq, and_true]
  same_predicate p h := by
    rw [accept_untyped, ((accept_withSchema_eq_ok_iff s text e p).1 h).2]
  error_iff := accept_withSchema_eq_error_iff s text e

theorem compile_of_parse (c : Compiler) {text : String} {e : Expr}
    (h : Expr.parse text = .ok e) : c.compile text = c.accept text e := by
  rw [compile, h]

/-- A text is malformed for a compiler exactly if it cannot be read. -/
theorem compile_eq_malformed_iff (c : Compiler) (text text' : String) (cause : ParseError) :
    c.compile text = .error (.malformed text' cause) ↔
      text' = text ∧ Expr.parse text = .error cause := by
  cases hparse : Expr.parse text with
  | error cause' => simp [compile, hparse, eq_comm]
  | ok e =>
      rw [c.compile_of_parse hparse, accept]
      cases c.misuse? e with
      | none => simp
      | some misuse => simp [misuse.inText_ne_malformed]

/-- A compiler with a schema refuses as malformed what the one without refuses, which is what cannot
be read.  Of a text that is read it accepts just the rules whose leaves all fit, with the same
predicate, and reports the first leaf that does not fit, together with the text.  Of an expression
it says the same with the keyword text, and it is never malformed. -/
theorem verdict_withSchema (s : Schema) :
    (∀ text text' cause, (withSchema s).compile text = .error (.malformed text' cause) ↔
        untyped.compile text = .error (.malformed text' cause)) ∧
      (∀ text text' cause, untyped.compile text = .error (.malformed text' cause) ↔
        text' = text ∧ Expr.parse text = .error cause) ∧
      (∀ text e, Expr.parse text = .ok e →
        s.Verdict text e (untyped.compile text) ((withSchema s).compile text)) ∧
      ∀ e, s.Verdict (e.render .keyword) e (untyped.compileExpr e) ((withSchema s).compileExpr e) ∧
        ∀ text cause, (withSchema s).compileExpr e ≠ .error (.malformed text cause) := by
  refine ⟨?_, ?_, ?_, ?_⟩
  · intro text text' cause
    rw [compile_eq_malformed_iff, compile_eq_malformed_iff]
  · intro text text' cause
    exact untyped.compile_eq_malformed_iff text text' cause
  · intro text e hparse
    rw [untyped.compile_of_parse hparse, (withSchema s).compile_of_parse hparse]
    exact verdict_accept s text e
  · intro e
    refine ⟨verdict_accept s _ e, ?_⟩
    intro text cause h
    obtain ⟨misuse, -, heq⟩ := ((verdict_accept s _ e).error_iff _).1 h
    exact misuse.inText_ne_malformed _ _ _ heq.symm

/-- Of two leaves that do not fit, the one on the left is reported. -/
theorem verdict_withSchema_payments :
    let text := "is_vip and (env == 1 or nope)"
    let e := Expr.and (.flag "is_vip") (.or (.eq "env" (.int 1)) (.flag "nope"))
    Expr.parse text = .ok e ∧ e.FirstMisuse .payments (.mismatch "env" .string .integer) ∧
      (withSchema .payments).compile text = .error (.typeMismatch text "env" .string .integer) := by
  intro text e
  have hparse : Expr.parse text = .ok e := by decide +kernel
  have hfirst : e.FirstMisuse .payments (.mismatch "env" .string .integer) := by
    refine ⟨[.flag "is_vip"], .eq "env" (.int 1), [.flag "nope"], rfl, ?_, ?_⟩
    · intro earlier hmem
      rw [List.mem_singleton.1 hmem]
      exact .flag (f := .boolean "is_vip") (by decide) rfl
    · exact .mismatch_eq (f := .string "env" ["prod", "staging", "test_env"]) (by decide) nofun
  have hverdict := (verdict_withSchema .payments).2.2.1 text e hparse
  exact ⟨hparse, hfirst, (hverdict.error_iff _).2 ⟨_, hfirst, rfl⟩⟩

end Compiler

end RecordRules
