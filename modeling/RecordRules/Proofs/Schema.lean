import Mathlib.Data.List.Nodup
import RecordRules.Schema

/-!
What a schema guarantees: its fields have different names, each a field name of rule text, and
the sample values of a field are of its kind.
-/

namespace RecordRules

/-- A field without a domain fault has sample values exactly if it is not boolean, and all of
them are of its kind. -/
theorem FieldDecl.domainFault?_eq_none_iff (f : FieldDecl) :
    f.domainFault? = none ↔
      (f.kind = .boolean ↔ f.domain = []) ∧ ∀ v ∈ f.domain, v.kind = f.kind := by
  rw [domainFault?]
  by_cases hkind : f.kind = .boolean
  · by_cases hdomain : f.domain = []
    · simp [hkind, hdomain]
    · simp [hkind, hdomain]
  · split
    · contradiction
    · by_cases hdomain : f.domain = []
      · simp [hkind, hdomain]
      · simp [hkind, hdomain]

namespace Schema

/-- Fields that come after others have no fault exactly if each is sound in itself and no name
is used twice. -/
theorem faultFrom?_eq_none_iff (earlier : List String) (fields : List FieldDecl) :
    faultFrom? earlier fields = none ↔
      (∀ f ∈ fields, Lexeme.isName f.name.toList = true ∧ f.name ∉ earlier ∧
        f.domainFault? = none) ∧ (fields.map (·.name)).Nodup := by
  induction fields generalizing earlier with
  | nil => simp [faultFrom?]
  | cons f fields ih =>
      have hfault : f.fault? earlier = none ↔
          Lexeme.isName f.name.toList = true ∧ f.name ∉ earlier ∧ f.domainFault? = none := by
        simp [FieldDecl.fault?]
        grind
      rw [faultFrom?]
      cases h : f.fault? earlier with
      | some fault =>
          have hbad := mt hfault.2 (by rw [h]; nofun)
          simp [hbad]
      | none =>
          have hgood := hfault.1 h
          simp only [ih, List.mem_cons, List.map_cons, List.nodup_cons, List.mem_map]
          grind

theorem faultFrom?_fields (s : Schema) : faultFrom? [] s.fields = none := by
  have hfault := s.faultless
  rwa [fault?, if_neg (by simp [s.fields_ne_nil])] at hfault

structure Sound (fields : List FieldDecl) : Prop where
  isName : ∀ f ∈ fields, Lexeme.isName f.name.toList = true
  nodup : (fields.map (·.name)).Nodup
  kind_eq_boolean_iff : ∀ f ∈ fields, f.kind = .boolean ↔ f.domain = []
  kind_eq : ∀ f ∈ fields, ∀ v ∈ f.domain, v.kind = f.kind

theorem sound_iff (fields : List FieldDecl) : Sound fields ↔ faultFrom? [] fields = none := by
  simp only [faultFrom?_eq_none_iff, FieldDecl.domainFault?_eq_none_iff]
  constructor
  · intro h
    refine ⟨fun f hf => ⟨h.isName f hf, List.not_mem_nil, ?_, h.kind_eq f hf⟩, h.nodup⟩
    exact h.kind_eq_boolean_iff f hf
  · rintro ⟨hall, hnodup⟩
    exact ⟨fun f hf => (hall f hf).1, hnodup, fun f hf => (hall f hf).2.2.1,
      fun f hf => (hall f hf).2.2.2⟩

theorem sound_fields (s : Schema) : Sound s.fields :=
  (sound_iff s.fields).2 s.faultFrom?_fields

theorem nodup_names (s : Schema) : (s.fields.map (·.name)).Nodup :=
  s.sound_fields.nodup

/-- Different names make a schema of boolean fields. -/
theorem fault?_map_boolean {names : List String} (hne : names ≠ [])
    (hnames : ∀ name ∈ names, Lexeme.isName name.toList = true) (hnodup : names.Nodup) :
    fault? (names.map .boolean) = none := by
  have hsome : (names.map FieldDecl.boolean).isEmpty = false := by
    rw [List.isEmpty_map]
    exact List.isEmpty_eq_false_iff.2 hne
  rw [fault?, hsome, if_neg Bool.false_ne_true, faultFrom?_eq_none_iff]
  constructor
  · intro f hf
    obtain ⟨name, hname, rfl⟩ := List.mem_map.1 hf
    exact ⟨hnames name hname, List.not_mem_nil, rfl⟩
  · have hmap : (names.map FieldDecl.boolean).map (·.name) = names := by
      rw [List.map_map]
      exact List.map_id names
    rw [hmap]
    exact hnodup

variable {s : Schema} {f : FieldDecl}

theorem isName_of_mem (h : f ∈ s.fields) : Lexeme.isName f.name.toList = true :=
  s.sound_fields.isName f h

theorem domain_eq_nil_iff_of_mem (h : f ∈ s.fields) : f.kind = .boolean ↔ f.domain = [] :=
  s.sound_fields.kind_eq_boolean_iff f h

theorem kind_eq_of_mem_domain (h : f ∈ s.fields) {v : Value} (hv : v ∈ f.domain) :
    v.kind = f.kind :=
  s.sound_fields.kind_eq f h v hv

/-- Looking a name up finds the one field of this name. -/
theorem field?_eq_some_iff (s : Schema) (name : String) (f : FieldDecl) :
    s.field? name = some f ↔ f ∈ s.fields ∧ f.name = name := by
  constructor
  · intro h
    have hname := List.find?_some h
    exact ⟨List.mem_of_find?_eq_some h, by simpa using hname⟩
  · rintro ⟨hf, rfl⟩
    have hfound : (s.field? f.name).isSome := by
      rw [field?, List.find?_isSome]
      exact ⟨f, hf, by simp⟩
    obtain ⟨g, hg⟩ := Option.isSome_iff_exists.1 hfound
    have hname : g.name = f.name := by simpa using List.find?_some hg
    have hsame := List.inj_on_of_nodup_map s.nodup_names (List.mem_of_find?_eq_some hg) hf hname
    rw [hg, hsame]

theorem field?_eq_none_iff (s : Schema) (name : String) :
    s.field? name = none ↔ ∀ f ∈ s.fields, f.name ≠ name := by
  simp [field?]

end Schema

end RecordRules
