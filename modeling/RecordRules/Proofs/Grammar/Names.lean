import Mathlib.Tactic.TFAE
import RecordRules.Proofs.Grammar.RoundTrip
import RecordRules.Proofs.Schema.Faults

/-!
Field names.  What a schema takes for the name of a field is what rule text takes for it, in front
of a literal and on its own: neither an operator nor a group nor a blank hides in a name.
-/

namespace RecordRules

/-- A field is blamed for its name, whatever else is wrong with it, if and only if that is no
name. -/
theorem FieldDecl.fault?_eq_invalidName_iff (earlier : List String) (f : FieldDecl) :
    f.fault? earlier = some (.invalidName f.name) ↔ Lexeme.isName f.name.toList = false := by
  rw [fault?]
  constructor
  · intro h
    split at h
    · next hname => simpa using hname
    · split at h
      · cases h
      · cases (f.domainFault?_eq_some_iff _).1 h
  · intro hname
    rw [hname]
    rfl

namespace Grammar

/-- The fields of what is read are names. -/
theorem nameable_of_parse {text : String} {e : Expr} (h : Expr.parse text = .ok e) :
    e.Nameable := by
  obtain ⟨rest, hderives, -⟩ := (read_eq_ok_iff _ _).1 ((parse_eq_ok_iff_read text e).1 h)
  exact hderives.nameable

theorem render_flag (d : Dialect) (field : String) : (Expr.flag field).render d = field := by
  rw [Expr.render, Expr.write, List.append_nil, String.ofList_toList]

theorem render_eq (d : Dialect) (field : String) (value : Value) :
    (Expr.eq field value).render d =
      field ++ " == " ++ String.ofList (Literal.ofValue value) := by
  rw [← String.toList_inj, toList_render]
  simp [Expr.write]

/-- A string is the name of a field for the schema, for the reader of names, by the grammar, and as
a rule: one that it is on its own, and one with any literal behind `==`. -/
theorem isName_tfae (s : String) :
    [Lexeme.isName s.toList = true,
      ∀ earlier kind domain, FieldDecl.fault? earlier ⟨s, kind, domain⟩ ≠ some (.invalidName s),
      Lexeme.name? s.toList = some (s.toList, []),
      Identifier s,
      Expr.parse s = .ok (.flag s),
      ∀ v : Value,
        Expr.parse (s ++ " == " ++ String.ofList (Literal.ofValue v)) = .ok (.eq s v)].TFAE := by
  have hflag : (Expr.flag s).Nameable ↔ Lexeme.isName s.toList = true := List.forall_mem_singleton
  have heq : ∀ v, (Expr.eq s v).Nameable ↔ Lexeme.isName s.toList = true :=
    fun _ => List.forall_mem_singleton
  tfae_have 1 ↔ 2 := by
    constructor
    · intro hname earlier kind domain hfault
      rw [FieldDecl.fault?_eq_invalidName_iff earlier ⟨s, kind, domain⟩, hname] at hfault
      cases hfault
    · intro hfault
      have hboolean := hfault [] .boolean []
      rw [ne_eq, FieldDecl.fault?_eq_invalidName_iff [] ⟨s, .boolean, []⟩] at hboolean
      simpa using hboolean
  tfae_have 1 ↔ 4 := isName_iff s
  tfae_have 3 ↔ 4 := by
    rw [name?_eq_some_iff, Name]
    simp [stops_nil]
  tfae_have 1 → 5 := by
    intro hname
    have hparse := parse_render .symbolic (hflag.2 hname) (Nat.zero_le _)
    rwa [render_flag] at hparse
  tfae_have 5 → 1 := by
    intro hparse
    exact hflag.1 (nameable_of_parse hparse)
  tfae_have 1 → 6 := by
    intro hname v
    have hparse := parse_render .symbolic ((heq v).2 hname) (Nat.zero_le _)
    rwa [render_eq] at hparse
  tfae_have 6 → 1 := by
    intro hparse
    exact (heq (.bool true)).1 (nameable_of_parse (hparse (.bool true)))
  tfae_finish

end Grammar

end RecordRules
