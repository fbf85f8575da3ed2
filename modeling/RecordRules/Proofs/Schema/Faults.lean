import Mathlib.Data.List.Induction
import RecordRules.Proofs.Schema

/-!
Building a schema.  Fields make a schema if there are any, their names are field names of rule text
and all different, and their sample values fit their kinds.  Otherwise the error is about the first
field that is at fault beside those before it: about its name, else about a field of the same name,
else about its sample values, of which the first that is of another kind is blamed.
-/

namespace RecordRules

/-- What is wrong with the sample values of a field. -/
inductive FieldDecl.DomainFault (f : FieldDecl) : SchemaFault → Prop
  | boolean : f.kind = .boolean → f.domain ≠ [] → f.DomainFault (.booleanDomain f.name)
  | empty : f.kind ≠ .boolean → f.domain = [] → f.DomainFault (.emptyDomain f.name)
  | mismatch {before after : List Value} {v : Value} : f.kind ≠ .boolean →
      f.domain = before ++ v :: after → (∀ u ∈ before, u.kind = f.kind) → v.kind ≠ f.kind →
      f.DomainFault (.domainKindMismatch f.name f.kind v.kind)

/-- What is wrong with a field that comes behind others. -/
inductive FieldDecl.Faulty (earlier : List FieldDecl) (f : FieldDecl) : SchemaFault → Prop
  | invalidName : Lexeme.isName f.name.toList = false → f.Faulty earlier (.invalidName f.name)
  | duplicateField {g : FieldDecl} : Lexeme.isName f.name.toList = true → g ∈ earlier →
      g.name = f.name → f.Faulty earlier (.duplicateField f.name)
  | domain {fault : SchemaFault} : Lexeme.isName f.name.toList = true →
      (∀ g ∈ earlier, g.name ≠ f.name) → f.DomainFault fault → f.Faulty earlier fault

namespace Schema

/-- The fields up to the first with which something is wrong, and what that is. -/
def FirstFault (fields : List FieldDecl) (fault : SchemaFault) : Prop :=
  ∃ before f after, fields = before ++ f :: after ∧ Sound before ∧ f.Faulty before fault

end Schema

namespace FieldDecl

theorem domainFault?_eq_some_iff (f : FieldDecl) (fault : SchemaFault) :
    f.domainFault? = some fault ↔ f.DomainFault fault := by
  rw [domainFault?]
  constructor
  · intro h
    split at h
    · next hkind =>
        split at h
        · cases h
        · next hdomain =>
            cases h
            exact .boolean hkind (mt List.isEmpty_iff.2 hdomain)
    · next hkind =>
        split at h
        · next hdomain =>
            cases h
            exact .empty hkind (List.isEmpty_iff.1 hdomain)
        · obtain ⟨v, hfound, rfl⟩ := Option.map_eq_some_iff.1 h
          obtain ⟨hv, before, after, hdomain, hbefore⟩ := List.find?_eq_some_iff_append.1 hfound
          refine .mismatch hkind hdomain ?_ (of_decide_eq_true hv)
          intro u hu
          simpa using hbefore u hu
  · intro h
    cases h with
    | boolean hkind hdomain => simp [hkind, hdomain]
    | empty hkind hdomain =>
        split
        · contradiction
        · simp [hdomain]
    | @mismatch before after v hkind hdomain hbefore hv =>
        split
        · contradiction
        · have hfound : f.domain.find? (·.kind ≠ f.kind) = some v := by
            refine List.find?_eq_some_iff_append.2 ⟨decide_eq_true hv, before, after, hdomain, ?_⟩
            intro u hu
            simp [hbefore u hu]
          have hsome : f.domain.isEmpty = false := by
            simp [hdomain]
          rw [hsome, hfound]
          rfl

/-- The names that were there are those of the fields before. -/
theorem fault?_eq_some_iff (earlier : List FieldDecl) (f : FieldDecl) (fault : SchemaFault) :
    f.fault? (earlier.map (·.name)).reverse = some fault ↔ f.Faulty earlier fault := by
  have hearlier : (earlier.map (·.name)).reverse.contains f.name = true ↔
      ∃ g ∈ earlier, g.name = f.name := by
    simp
  rw [fault?]
  constructor
  · intro h
    split at h
    · next hname =>
        cases h
        exact .invalidName (by simpa using hname)
    · next hname =>
        have hname : Lexeme.isName f.name.toList = true := by simpa using hname
        split at h
        · next hold =>
            cases h
            obtain ⟨g, hg, heq⟩ := hearlier.1 hold
            exact .duplicateField hname hg heq
        · next hnew =>
            refine .domain hname ?_ ((f.domainFault?_eq_some_iff fault).1 h)
            intro g hg heq
            exact hnew (hearlier.2 ⟨g, hg, heq⟩)
  · intro h
    cases h with
    | invalidName hname => rw [hname]; rfl
    | duplicateField hname hg heq =>
        rw [hname, hearlier.2 ⟨_, hg, heq⟩]
        rfl
    | domain hname hnew hdomain =>
        have hfresh : ¬ (earlier.map (·.name)).reverse.contains f.name = true := by
          rintro hold
          obtain ⟨g, hg, heq⟩ := hearlier.1 hold
          exact hnew g hg heq
        rw [hname, Bool.not_true, if_neg Bool.false_ne_true, if_neg hfresh]
        exact (f.domainFault?_eq_some_iff fault).2 hdomain

end FieldDecl

namespace Schema

/-- Behind fields without a fault, the search goes on with their names added. -/
theorem faultFrom?_append (earlier : List String) (fields more : List FieldDecl) :
    faultFrom? earlier (fields ++ more) =
      (faultFrom? earlier fields).or
        (faultFrom? ((fields.map (·.name)).reverse ++ earlier) more) := by
  induction fields generalizing earlier with
  | nil => rfl
  | cons f fields ih =>
      rw [List.cons_append, faultFrom?, faultFrom?]
      cases f.fault? earlier with
      | some fault => rfl
      | none => simpa using ih (f.name :: earlier)

theorem faultFrom?_eq_some_iff (fields : List FieldDecl) (fault : SchemaFault) :
    faultFrom? [] fields = some fault ↔ FirstFault fields fault := by
  constructor
  · intro h
    induction fields using List.reverseRecOn with
    | nil => cases h
    | append_singleton fields f ih =>
        rw [faultFrom?_append] at h
        cases hfields : faultFrom? [] fields with
        | some other =>
            rw [hfields, Option.some_or] at h
            obtain ⟨before, g, after, rfl, hbefore, hg⟩ := ih (hfields.trans h)
            exact ⟨before, g, after ++ [f], by simp, hbefore, hg⟩
        | none =>
            rw [hfields, Option.none_or, List.append_nil, faultFrom?] at h
            cases hf : f.fault? (fields.map (·.name)).reverse with
            | none =>
                rw [hf] at h
                cases h
            | some other =>
                rw [hf] at h
                cases h
                exact ⟨fields, f, [], rfl, (sound_iff fields).2 hfields,
                  (FieldDecl.fault?_eq_some_iff fields f fault).1 hf⟩
  · rintro ⟨before, f, after, rfl, hbefore, hf⟩
    rw [faultFrom?_append, (sound_iff before).1 hbefore, Option.none_or, List.append_nil,
      faultFrom?, (FieldDecl.fault?_eq_some_iff before f fault).2 hf]

theorem fault?_eq_some_iff (fields : List FieldDecl) (fault : SchemaFault) :
    fault? fields = some fault ↔ fields = [] ∧ fault = .empty ∨ FirstFault fields fault := by
  rw [← faultFrom?_eq_some_iff, fault?]
  cases fields with
  | nil => simp [faultFrom?, eq_comm]
  | cons f fields => simp

theorem fault?_eq_none_iff (fields : List FieldDecl) :
    fault? fields = none ↔ fields ≠ [] ∧ Sound fields := by
  rw [sound_iff, fault?]
  cases fields with
  | nil => simp
  | cons f fields => simp

theorem build_eq_ok_iff (fields : List FieldDecl) (s : Schema) :
    build fields = .ok s ↔ s.fields = fields := by
  obtain ⟨held, hheld⟩ := s
  unfold build
  constructor
  · intro h
    split at h
    · cases h
    · cases h
      rfl
  · rintro rfl
    split
    · next hfault =>
        rw [hheld] at hfault
        cases hfault
    · rfl

theorem build_eq_error_iff (fields : List FieldDecl) (fault : SchemaFault) :
    build fields = .error fault ↔ fault? fields = some fault := by
  unfold build
  constructor
  · intro h
    split at h
    · next hfault =>
        cases h
        exact hfault
    · cases h
  · intro h
    split
    · next hfault =>
        rw [h] at hfault
        cases hfault
        rfl
    · next hnone =>
        rw [h] at hnone
        cases hnone

theorem exists_build_iff (fields : List FieldDecl) :
    (∃ s, build fields = .ok s) ↔ fields ≠ [] ∧ Sound fields := by
  rw [← fault?_eq_none_iff]
  constructor
  · rintro ⟨s, hs⟩
    rw [← (build_eq_ok_iff fields s).1 hs]
    exact s.faultless
  · intro h
    exact ⟨⟨fields, h⟩, (build_eq_ok_iff fields _).2 rfl⟩

/-- Fields make a schema exactly if there are any and nothing is wrong with them.  The schema has
them in their order, a name finds the one field of this name or none, and the fields of the schema
make the same schema again.  Otherwise the error is that there are no fields, or what is wrong with
the first that is at fault. -/
theorem build_blames_first (fields : List FieldDecl) :
    ((∃ s, build fields = .ok s) ↔ fields ≠ [] ∧ Sound fields) ∧
      (∀ s, build fields = .ok s → s.fields = fields ∧
        (∀ name f, s.field? name = some f ↔ f ∈ fields ∧ f.name = name) ∧
        (∀ name, s.field? name = none ↔ ∀ f ∈ fields, f.name ≠ name) ∧
        build (s.fields.map fun f => ⟨f.name, f.kind, f.domain⟩) = .ok s) ∧
      ∀ fault, build fields = .error fault ↔
        fields = [] ∧ fault = .empty ∨ FirstFault fields fault := by
  refine ⟨exists_build_iff fields, ?_, ?_⟩
  · intro s hs
    obtain rfl := (build_eq_ok_iff fields s).1 hs
    refine ⟨rfl, s.field?_eq_some_iff, s.field?_eq_none_iff, ?_⟩
    exact (build_eq_ok_iff _ s).2 (List.map_id s.fields).symm
  · intro fault
    rw [build_eq_error_iff, fault?_eq_some_iff]

/-- The fields of payments are a schema.  Behind one of them, a string field with a truth value
among its samples is blamed, and not the field behind it, whose name is taken. -/
theorem build_blames_first_payments :
    let env : FieldDecl := ⟨"env", .string, [.str "prod", .bool true, .int 1]⟩
    let fields : List FieldDecl := [.boolean "is_vip", env, .boolean "is_vip"]
    build paymentFields = .ok payments ∧
      payments.field? "is_vip" = some (.boolean "is_vip") ∧ payments.field? "vip" = none ∧
      build fields = .error (.domainKindMismatch "env" .string .boolean) := by
  intro env fields
  have hbuild : build paymentFields = .ok payments := (build_eq_ok_iff _ _).2 rfl
  obtain ⟨-, hsome, hnone, -⟩ := (build_blames_first paymentFields).2.1 payments hbuild
  have hbefore : Sound [.boolean "is_vip"] := (sound_iff _).2 (by decide +kernel)
  have hname : Lexeme.isName "env".toList = true := by decide +kernel
  have hdomain : env.domain = [.str "prod"] ++ .bool true :: [.int 1] := rfl
  have hfault : env.DomainFault (.domainKindMismatch "env" .string .boolean) :=
    FieldDecl.DomainFault.mismatch (by decide) hdomain (by decide) (by decide)
  refine ⟨hbuild, (hsome _ _).2 ⟨List.mem_cons_self, rfl⟩, (hnone _).2 (by decide), ?_⟩
  have hfirst : FirstFault fields (.domainKindMismatch "env" .string .boolean) :=
    ⟨[.boolean "is_vip"], _, [.boolean "is_vip"], rfl, hbefore, .domain hname (by decide) hfault⟩
  exact ((build_blames_first fields).2.2 _).2 (.inr hfirst)

end Schema

end RecordRules
