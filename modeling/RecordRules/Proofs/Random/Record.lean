import RecordRules.Proofs.Random.Draw
import RecordRules.Proofs.Schema
import RecordRules.Record.Random

/-!
What random records guarantee.  Whatever the words are, each record has the fields of the schema
and no other, every value is of the kind of its field, and comes from the domain of the field or,
if it is an integer, from the band.
-/

namespace RecordRules

/-! ### Draws from a band -/

namespace Band

def Holds (b : Band) (i : Int64) : Prop :=
  b.first ≤ i ∧ i ≤ b.last

section Offsets

variable {b : Band}

/-- The sum of the first integer and an offset below the width is no more than the last integer,
so it is a 64-bit integer. -/
theorem toInt_ofInt_first_add {k : Nat} (hk : k < b.width) :
    (Int64.ofInt (b.first.toInt + k)).toInt = b.first.toInt + k := by
  have hfirst := b.first.le_toInt
  have hlast := b.last.toInt_lt
  rw [width] at hk
  apply Int64.toInt_ofInt_of_le
  · omega
  · omega

theorem holds_ofInt_first_add {k : Nat} (hk : k < b.width) :
    b.Holds (Int64.ofInt (b.first.toInt + k)) := by
  rw [Holds, Int64.le_iff_toInt_le, Int64.le_iff_toInt_le, toInt_ofInt_first_add hk]
  rw [width] at hk
  omega

/-- A band as wide as the range of words holds all integers. -/
theorem holds_of_width_eq (hb : b.width = Nat.pow 2 64) (i : Int64) : b.Holds i := by
  have hfirst := b.first.le_toInt
  have hlast := b.last.toInt_lt
  have hi := i.le_toInt
  have hi' := i.toInt_lt
  have hword : Nat.pow 2 64 = 18446744073709551616 := rfl
  rw [width, hword] at hb
  rw [Holds, Int64.le_iff_toInt_le, Int64.le_iff_toInt_le]
  omega

end Offsets

/-- An integer that is drawn from a narrower band is the exact sum of the first one and the
offset that was drawn. -/
theorem toInt_run_draw (b : Band) (hb : b.width ≠ Nat.pow 2 64) (hpos : 0 < b.width)
    (words : Words) :
    (b.draw.run words).1.toInt =
      b.first.toInt + ((Draw.below 64 b.width hpos).run words).1.val := by
  rw [draw, if_neg hb, dif_pos hpos]
  exact toInt_ofInt_first_add (Fin.isLt _)

variable {P : Words → Prop} (hP : Words.Lasting P) {b : Band} (hpos : 0 < b.width)

include hP hpos

theorem yields_draw : Draw.Yields P b.draw b.Holds := by
  rw [draw, dif_pos hpos]
  split
  · next hb =>
      apply (Draw.yields_word hP).bind
      intro word _
      exact .pure (holds_of_width_eq hb _)
  · apply (Draw.yields_below hP 64 b.width hpos).bind
    intro k _
    exact .pure (holds_ofInt_first_add k.isLt)

/-- Drawing again never leaves the band. -/
theorem yields_drawOutside (values : List Value) (again : Nat) :
    Draw.Yields P (b.drawOutside values again) b.Holds := by
  induction again with
  | zero => exact yields_draw hP hpos
  | succ again ih =>
      apply (yields_draw hP hpos).bind
      intro i hi
      split
      · exact ih
      · exact .pure hi

end Band

theorem RecordSettings.width_pos {c : RecordSettings} (h : c.fault? = none) :
    0 < c.band.width := by
  rw [fault?, Option.or_eq_none_iff] at h
  apply Nat.pos_of_ne_zero
  intro hwidth
  rw [if_pos hwidth] at h
  cases h.2

/-! ### Fields of a record -/

namespace Record

def names (r : Record) : List String :=
  r.entries.map Prod.fst

theorem isSome_get?_iff (r : Record) (name : String) :
    (r.get? name).isSome ↔ name ∈ r.names := by
  rw [get?, names, List.lookup_isSome_iff]
  simp

/-- Different names that are just those of a record are as many as its fields. -/
theorem size_eq_length {r : Record} {names : List String} (hnodup : names.Nodup)
    (h : ∀ name, (r.get? name).isSome ↔ name ∈ names) : r.size = names.length := by
  have hperm : r.names.Perm names := by
    apply (List.perm_ext_iff_of_nodup r.nodup hnodup).2
    intro name
    exact (r.isSome_get?_iff name).symm.trans (h name)
  rw [← hperm.length_eq, Record.names, List.length_map, size]

end Record

namespace RandomRecords

/-- A value that a field may be given: of its kind, and from its domain or from the band. -/
structure Allows (c : RecordSettings) (f : FieldDecl) (value : Value) : Prop where
  kind_eq : value.kind = f.kind
  of_string : f.kind = .string → value ∈ f.domain
  of_integer : f.kind = .integer → value ∈ f.domain ∨ ∃ i, value = .int i ∧ c.band.Holds i

/-- A record with the fields of the schema and no other, each with a value that it may be
given. -/
structure Completes (s : Schema) (c : RecordSettings) (r : Record) : Prop where
  isSome_iff : ∀ name, (r.get? name).isSome ↔ name ∈ s.fields.map (·.name)
  size_eq : r.size = s.size
  exists_value : ∀ f ∈ s.fields, ∃ value, r.get? f.name = some value ∧ Allows c f value

theorem allows_of_mem_domain {s : Schema} {f : FieldDecl} (hf : f ∈ s.fields)
    (c : RecordSettings) {value : Value} (hvalue : value ∈ f.domain) : Allows c f value where
  kind_eq := Schema.kind_eq_of_mem_domain hf hvalue
  of_string _ := hvalue
  of_integer _ := .inl hvalue

section Drawn

variable {P : Words → Prop} (hP : Words.Lasting P) (g : RandomRecords)

include hP

/-- A domain that a value is taken from is never empty, so each field gets a value. -/
theorem yields_value? {f : FieldDecl} (hf : f ∈ g.schema.fields) :
    Draw.Yields P (g.value? f) fun found =>
      ∃ value, found = some value ∧ Allows g.settings f value := by
  have hsample : f.kind ≠ .boolean → Draw.Yields P (Draw.choose? f.domain) fun found =>
      ∃ value, found = some value ∧ Allows g.settings f value := by
    intro hkind
    apply (Draw.yields_choose? hP (mt (Schema.domain_eq_nil_iff_of_mem hf).2 hkind)).mono
    rintro _ ⟨value, hvalue, rfl⟩
    exact ⟨value, rfl, allows_of_mem_domain hf _ hvalue⟩
  unfold value?
  split
  · next hkind =>
      apply (Draw.yields_coin hP).bind
      intro b _
      exact .pure ⟨.bool b, rfl, hkind.symm, by simp [hkind], by simp [hkind]⟩
  · next hkind => exact hsample (by simp [hkind])
  · next hkind =>
      apply (Draw.yields_chance hP _).bind
      intro inDomain _
      split
      · exact hsample (by simp [hkind])
      · apply (Band.yields_drawOutside hP (RecordSettings.width_pos g.faultless) _ _).bind
        intro i hi
        exact .pure ⟨.int i, rfl, hkind.symm, by simp [hkind], fun _ => .inr ⟨i, rfl, hi⟩⟩

/-- Each of the fields gets a value, and no other field is touched. -/
theorem yields_fill (fields : List FieldDecl) (r : Record)
    (hfields : ∀ f ∈ fields, f ∈ g.schema.fields) (hnodup : (fields.map (·.name)).Nodup) :
    Draw.Yields P (g.fill fields r) fun filled =>
      (∀ f ∈ fields, ∃ value, filled.get? f.name = some value ∧ Allows g.settings f value) ∧
        ∀ name ∉ fields.map (·.name), filled.get? name = r.get? name := by
  induction fields generalizing r with
  | nil => exact .pure ⟨fun f hf => absurd hf List.not_mem_nil, fun _ _ => rfl⟩
  | cons f fields ih =>
      rw [List.map_cons, List.nodup_cons] at hnodup
      obtain ⟨hf, hrest⟩ := List.forall_mem_cons.1 hfields
      apply (g.yields_value? hP hf).bind
      rintro _ ⟨value, rfl, hvalue⟩
      apply (ih (r.insert f.name value) hrest hnodup.2).mono
      rintro filled ⟨hfilled, hkept⟩
      constructor
      · rw [List.forall_mem_cons]
        refine ⟨⟨value, ?_, hvalue⟩, hfilled⟩
        rw [hkept f.name hnodup.1, Record.get?_insert, if_pos rfl]
      · intro name hname
        rw [List.map_cons, List.mem_cons, not_or] at hname
        rw [hkept name hname.2, Record.get?_insert, if_neg hname.1]

theorem yields_record : Draw.Yields P g.record (Completes g.schema g.settings) := by
  apply (g.yields_fill hP g.schema.fields .empty (fun _ hf => hf) g.schema.nodup_names).mono
  rintro r ⟨hvalues, hothers⟩
  have hnames : ∀ name, (r.get? name).isSome ↔ name ∈ g.schema.fields.map (·.name) := by
    intro name
    constructor
    · intro hsome
      by_contra hname
      rw [hothers name hname, Record.get?_empty] at hsome
      cases hsome
    · intro hname
      obtain ⟨f, hf, rfl⟩ := List.mem_map.1 hname
      obtain ⟨value, hget, _⟩ := hvalues f hf
      rw [hget]
      rfl
  refine ⟨hnames, ?_, hvalues⟩
  rw [Record.size_eq_length g.schema.nodup_names hnames, List.length_map, Schema.size]

/-- As many records come behind those already made as were asked for. -/
theorem yields_recordsBehind (made : List Record) (count : Nat) :
    Draw.Yields P (g.recordsBehind made count) fun records =>
      ∃ more, records = made.reverse ++ more ∧ more.length = count ∧
        ∀ r ∈ more, Completes g.schema g.settings r := by
  induction count generalizing made with
  | zero => exact .pure ⟨[], (List.append_nil _).symm, rfl, by simp⟩
  | succ count ih =>
      apply (g.yields_record hP).bind
      intro r hr
      apply (ih (r :: made)).mono
      rintro _ ⟨more, rfl, hlength, hmore⟩
      refine ⟨r :: more, ?_, congrArg (· + 1) hlength, List.forall_mem_cons.2 ⟨hr, hmore⟩⟩
      rw [List.reverse_cons, List.append_assoc, List.singleton_append]

theorem yields_records (count : Nat) :
    Draw.Yields P (g.records count) fun records => records.length = count ∧
      ∀ r ∈ records, Completes g.schema g.settings r := by
  apply (g.yields_recordsBehind hP [] count).mono
  rintro _ ⟨more, rfl, hlength, hmore⟩
  exact ⟨hlength, hmore⟩

end Drawn

/-- Settings without a fault make random records of every schema. -/
theorem make_eq_ok (s : Schema) {c : RecordSettings} (h : c.fault? = none) :
    make s c = .ok ⟨s, c, h⟩ := by
  unfold make
  split
  · next hfault =>
      rw [h] at hfault
      cases hfault
  · rfl

/-- For every schema and all settings without a fault there are random records: as many as asked
for, whatever the words are, and each has exactly the fields of the schema, with values of their
kinds that come from their domains or, in integer fields, from the band.  A draw from the band is
the exact sum of its first integer and the offset drawn, or, if the band is all integers, the word
itself. -/
theorem records_complete (s : Schema) (c : RecordSettings) (h : c.fault? = none) :
    ∃ g, make s c = .ok g ∧
      (∀ count words, ((g.records count).run words).1.length = count ∧
        ∀ r ∈ ((g.records count).run words).1, Completes s c r) ∧
      ∀ words, c.band.Holds (c.band.draw.run words).1 ∧
        (c.band.draw.run words).1.toInt =
          if c.band.width = Nat.pow 2 64 then (Draw.word.run words).1.toInt64.toInt
          else c.band.first.toInt +
            ((Draw.below 64 c.band.width (RecordSettings.width_pos h)).run words).1.val := by
  refine ⟨⟨s, c, h⟩, make_eq_ok s h, ?_, ?_⟩
  · intro count words
    exact (yields_records Words.lasting_true _ count words trivial).1
  · intro words
    refine ⟨(Band.yields_draw Words.lasting_true (RecordSettings.width_pos h) words trivial).1, ?_⟩
    split
    · next hb =>
        rw [Band.draw, if_pos hb]
        rfl
    · next hb => exact c.band.toInt_run_draw hb _ words

/-- All integers from the least to the greatest: the width of the band is one more than a word
can say. -/
theorem records_complete_all_integers :
    let c : RecordSettings := ⟨0.0, ⟨Int64.minValue, Int64.maxValue⟩⟩
    c.fault? = none ∧ ∃ g, make .payments c = .ok g ∧
      ∀ count words, ((g.records count).run words).1.length = count ∧
        ∀ r ∈ ((g.records count).run words).1, Completes .payments c r := by
  intro c
  have hc : c.fault? = none := by decide +kernel
  obtain ⟨g, hg, hrecords, _⟩ := records_complete .payments c hc
  exact ⟨hc, g, hg, hrecords⟩

end RandomRecords

end RecordRules
