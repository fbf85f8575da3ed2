import RecordRules.Value

/-!
Records: finite maps from field names to values.
-/

namespace RecordRules

/-- An input record.  No name occurs twice. -/
structure Record where
  entries : List (String × Value)
  nodup : (entries.map Prod.fst).Nodup

namespace Record

def empty : Record := ⟨[], List.nodup_nil⟩

def get? (r : Record) (name : String) : Option Value :=
  r.entries.lookup name

def size (r : Record) : Nat :=
  r.entries.length

def isEmpty (r : Record) : Bool :=
  r.entries.isEmpty

/-- Puts a value under a name in a list of entries, in place of an earlier one. -/
def insertEntry (name : String) (value : Value) :
    List (String × Value) → List (String × Value)
  | [] => [(name, value)]
  | entry :: rest =>
      if entry.1 = name then (name, value) :: rest else entry :: insertEntry name value rest

theorem map_fst_insertEntry (name : String) (value : Value) (entries : List (String × Value)) :
    (insertEntry name value entries).map Prod.fst =
      if name ∈ entries.map Prod.fst then entries.map Prod.fst
      else entries.map Prod.fst ++ [name] := by
  induction entries with
  | nil => simp [insertEntry]
  | cons entry rest ih =>
      by_cases h : entry.1 = name
      · simp [insertEntry, h]
      · rw [insertEntry, if_neg h, List.map_cons, ih, List.map_cons]
        by_cases hmem : name ∈ rest.map Prod.fst
        · simp only [List.mem_cons, hmem, or_true, if_true]
        · simp only [List.mem_cons, hmem, or_false, Ne.symm h, if_false, List.cons_append]

theorem nodup_insertEntry (name : String) (value : Value) {entries : List (String × Value)}
    (h : (entries.map Prod.fst).Nodup) :
    ((insertEntry name value entries).map Prod.fst).Nodup := by
  rw [map_fst_insertEntry]
  split
  · exact h
  · next hmem =>
      rw [List.nodup_append]
      refine ⟨h, by simp, ?_⟩
      intro a ha b hb
      rw [List.mem_singleton] at hb
      subst hb
      rintro rfl
      exact hmem ha

def insert (r : Record) (name : String) (value : Value) : Record :=
  ⟨insertEntry name value r.entries, nodup_insertEntry name value r.nodup⟩

/-- The record of the entries; of two with one name the later one counts. -/
def ofList (entries : List (String × Value)) : Record :=
  entries.foldl (fun r entry => r.insert entry.1 entry.2) empty

def sorted (r : Record) : List (String × Value) :=
  r.entries.mergeSort fun a b => !(b.1 < a.1)

def sameAs (r s : Record) : Bool :=
  r.size == s.size && r.entries.all fun entry => s.get? entry.1 = some entry.2

theorem lookup_insertEntry (name other : String) (value : Value)
    (entries : List (String × Value)) :
    (insertEntry name value entries).lookup other =
      if other = name then some value else entries.lookup other := by
  induction entries with
  | nil =>
      by_cases ho : other = name
      · simp [insertEntry, ho]
      · simp [insertEntry, List.lookup_cons, beq_eq_false_iff_ne.2 ho, ho]
  | cons entry rest ih =>
      obtain ⟨key, held⟩ := entry
      by_cases h : key = name
      · by_cases ho : other = name
        · simp [insertEntry, h, ho]
        · simp [insertEntry, h, List.lookup_cons, beq_eq_false_iff_ne.2 ho, ho]
      · by_cases ho : other = key
        · simp [insertEntry, h, ho]
        · simp [insertEntry, h, List.lookup_cons, beq_eq_false_iff_ne.2 ho, ih]

/-- A field that was set has the value it was set to, and every other keeps its own. -/
theorem get?_insert (r : Record) (name other : String) (value : Value) :
    (r.insert name value).get? other = if other = name then some value else r.get? other :=
  lookup_insertEntry name other value r.entries

theorem get?_empty (name : String) : empty.get? name = none := rfl

end Record

end RecordRules
