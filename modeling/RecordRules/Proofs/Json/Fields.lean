import RecordRules.Json.Document
import RecordRules.Proofs.Json.RoundTrip

/-!
Values and fields as documents.  Nothing in the document of a value tells its kind but the form of
the document, and that is enough: every value and every field is read back from its text, whether or
not a schema could have the field.
-/

namespace RecordRules

namespace Json

theorem writable_ofString (s : String) : (ofString s).Writable :=
  .string (StringUnit.writable_encode s)

theorem writable_ofMembers {members : List (String × Json)}
    (h : ∀ m ∈ members, m.2.Writable) : (ofMembers members).Writable := by
  refine .object ?_ ?_
  · intro m hm
    obtain ⟨⟨name, j⟩, -, rfl⟩ := List.mem_map.1 hm
    exact StringUnit.writable_encode name
  · intro m hm
    obtain ⟨⟨name, j⟩, hmem, rfl⟩ := List.mem_map.1 hm
    exact h _ hmem

theorem string?_ofString (s : String) : (ofString s).string? = some s :=
  StringUnit.decode?_encode s

theorem variant?_ofString (s : String) : (ofString s).variant? = some s :=
  StringUnit.decode?_encode s

/-- Where no name occurs twice, each member is the only one of its name. -/
theorem unique?_of_mem {members : List (String × Json)} (hnodup : (members.map Prod.fst).Nodup)
    {m : String × Json} (h : m ∈ members) : unique? members m.1 = some (some m.2) := by
  have hfilter : members.filter (·.1 = m.1) = [m] := by
    induction members with
    | nil => cases h
    | cons a members ih =>
        rw [List.map_cons, List.nodup_cons] at hnodup
        rcases List.mem_cons.1 h with rfl | h
        · rw [List.filter_cons_of_pos (by simp), List.filter_eq_nil_iff.2]
          intro b hb heq
          rw [decide_eq_true_eq] at heq
          exact hnodup.1 (heq ▸ List.mem_map_of_mem hb)
        · have hne : a.1 ≠ m.1 := by
            intro heq
            exact hnodup.1 (heq ▸ List.mem_map_of_mem h)
          rw [List.filter_cons_of_neg (by simpa using hne), ih hnodup.2 h]
  rw [unique?, hfilter]

theorem mapM_eq_some_map {α β : Type} {f : α → Option β} {g : α → β} {xs : List α}
    (h : ∀ x ∈ xs, f x = some (g x)) : xs.mapM f = some (xs.map g) := by
  induction xs with
  | nil => rfl
  | cons x xs ih =>
      rw [List.forall_mem_cons] at h
      rw [List.mapM_cons, h.1, ih h.2]
      rfl

/-- The parts of an object are found by their names. -/
theorem parts?_ofMembers (members : List (String × Json))
    (hnodup : (members.map Prod.fst).Nodup) :
    (ofMembers members).parts? false (members.map Prod.fst) =
      some (members.map fun m => some m.2) := by
  rw [ofMembers, parts?, List.mapM_map, mapM_eq_some_map (g := id) ?decoded, List.map_id]
  case decoded =>
    intro m _
    simp [StringUnit.decode?_encode]
  change (members.map Prod.fst).mapM (unique? members) = _
  rw [List.mapM_map]
  exact mapM_eq_some_map fun m hm => unique?_of_mem hnodup hm

end Json

namespace Value

theorem writable_toJson (v : Value) : v.toJson.Writable := by
  cases v with
  | bool b => exact .bool b
  | int i => exact .number (Numeral.writable_ofInt i.toInt)
  | str s => exact Json.writable_ofString s

/-- The form of a document tells the kind of the value. -/
theorem ofJson?_toJson (v : Value) : ofJson? v.toJson = some v := by
  cases v with
  | bool b => rfl
  | int i =>
      change (Json.ofInt i.toInt).int64?.map Value.int = some (.int i)
      rw [Json.int64?_ofInt, Option.map_some]
  | str s =>
      change (StringUnit.decode? (StringUnit.encode s)).map Value.str = some (.str s)
      rw [StringUnit.decode?_encode, Option.map_some]

end Value

theorem Kind.ofJson?_toJson (k : Kind) : ofJson? k.toJson = some k := by
  rw [ofJson?, toJson, Json.variant?_ofString, Option.bind_some]
  cases k <;> rfl

namespace FieldDecl

theorem writable_toJson (f : FieldDecl) : f.toJson.Writable := by
  refine Json.writable_ofMembers ?_
  simp only [List.forall_mem_cons, List.not_mem_nil, false_implies, implies_true, and_true]
  refine ⟨Json.writable_ofString f.name, Json.writable_ofString f.kind.tag, .array ?_⟩
  intro item hitem
  obtain ⟨v, -, rfl⟩ := List.mem_map.1 hitem
  exact v.writable_toJson

theorem domainOfJson?_map_toJson (domain : List Value) :
    domainOfJson? (.array (domain.map Value.toJson)) = some domain := by
  rw [domainOfJson?, List.mapM_map, Json.mapM_eq_some_map (g := id), List.map_id]
  intro v _
  exact v.ofJson?_toJson

theorem ofJson?_toJson (f : FieldDecl) : ofJson? f.toJson = some f := by
  have hparts := Json.parts?_ofMembers [("name", .ofString f.name), ("kind", f.kind.toJson),
    ("domain", .array (f.domain.map Value.toJson))] (by simp)
  simp only [List.map_cons, List.map_nil] at hparts
  simp only [ofJson?, toJson, hparts]
  simp [Json.string?_ofString, Kind.ofJson?_toJson, domainOfJson?_map_toJson]

end FieldDecl

/-- Every value and every field is read back from the text of its document, and no two values have
the same text. -/
theorem values_and_fields_read_back :
    (∀ v : Value, (Json.read? (String.ofList v.toJson.write)).bind Value.ofJson? = some v) ∧
    (∀ f : FieldDecl,
      (Json.read? (String.ofList f.toJson.write)).bind FieldDecl.ofJson? = some f) ∧
    Function.Injective fun v : Value => v.toJson.write := by
  have hvalue : ∀ v : Value,
      (Json.read? (String.ofList v.toJson.write)).bind Value.ofJson? = some v := by
    intro v
    rw [Json.read?_write v.writable_toJson, Option.bind_some, v.ofJson?_toJson]
  refine ⟨hvalue, ?_, ?_⟩
  · intro f
    rw [Json.read?_write f.writable_toJson, Option.bind_some, f.ofJson?_toJson]
  · intro v w hwritten
    have hread := hvalue v
    rw [show v.toJson.write = w.toJson.write from hwritten, hvalue w] at hread
    exact (Option.some.inj hread).symm

end RecordRules
