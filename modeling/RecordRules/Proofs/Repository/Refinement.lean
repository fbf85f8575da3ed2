import RecordRules.Proofs.Repository.Table

/-!
A phased repository behaves as the insertion-ordered map of its entries, whatever is asked of
it and in whatever order.
-/

namespace RecordRules

namespace Repository

/-- The repository is phased, with a well-indexed table that has these entries. -/
def StandsFor (r : Repository) (c : Compiler) (l : Listing) : Prop :=
  ∃ t : RuleTable, r = ⟨c, .phased t⟩ ∧ t.WellIndexed ∧ t.entries = l

theorem standsFor_empty (c : Compiler) :
    ((Repository.empty .phased).withCompiler c).StandsFor c [] :=
  ⟨.empty, rfl, RuleTable.wellIndexed_empty, RuleTable.entries_empty⟩

section Reads

variable {r : Repository} {c : Compiler} {l : Listing}

theorem StandsFor.snapshot (h : r.StandsFor c l) : r.snapshot = l.rules := by
  obtain ⟨t, rfl, _, rfl⟩ := h
  exact t.rules_entries.symm

theorem StandsFor.ids (h : r.StandsFor c l) : r.ids = l.map Prod.fst := by
  obtain ⟨t, rfl, _, rfl⟩ := h
  exact t.map_fst_entries.symm

theorem StandsFor.size (h : r.StandsFor c l) : r.size = l.length := by
  obtain ⟨t, rfl, _, rfl⟩ := h
  exact t.length_entries.symm

theorem StandsFor.isEmpty (h : r.StandsFor c l) : r.isEmpty = l.isEmpty := by
  rw [Repository.isEmpty, h.size]
  cases l <;> rfl

theorem StandsFor.get? (h : r.StandsFor c l) (id : String) : r.get? id = l.lookup id := by
  obtain ⟨t, rfl, w, rfl⟩ := h
  exact w.get?_eq_lookup id

theorem StandsFor.contains (h : r.StandsFor c l) (id : String) :
    r.contains id = decide (id ∈ l.map Prod.fst) := by
  obtain ⟨t, rfl, w, rfl⟩ := h
  exact w.contains_eq_decide_mem id

theorem StandsFor.hits (h : r.StandsFor c l) (record : Record) :
    r.hits record = (l.filter (·.2.holdsOn record)).map Prod.fst := by
  obtain ⟨t, rfl, _, rfl⟩ := h
  rw [RuleTable.entries, List.filter_map, List.map_map]
  rfl

end Reads

section Writes

variable {r : Repository} {c : Compiler} {l : Listing}

theorem StandsFor.remove (h : r.StandsFor c l) (id : String) :
    (r.remove id).2.StandsFor c (l.remove id) := by
  obtain ⟨t, rfl, w, rfl⟩ := h
  exact ⟨t.erase id, rfl, w.erase id, w.entries_erase id⟩

theorem StandsFor.put_of_ok (h : r.StandsFor c l) {text : String} {p : Predicate}
    (hcompile : c.compile text = .ok p) (id : String) :
    ∃ stored, r.put id text = .ok stored ∧ stored.StandsFor c (l.put id ⟨id, text, p⟩) := by
  obtain ⟨t, rfl, w, rfl⟩ := h
  refine ⟨⟨c, .phased (t.install ⟨id, text, p⟩)⟩, ?_, _, rfl, w.install _, w.entries_install _⟩
  rw [Repository.put, Rule.compile, hcompile]
  rfl

theorem StandsFor.put_of_error (h : r.StandsFor c l) {text : String} {cause : CompileError}
    (hcompile : c.compile text = .error cause) (id : String) :
    r.put id text = .error ⟨id, cause⟩ := by
  obtain ⟨t, rfl, _, _⟩ := h
  rw [Repository.put, Rule.compile, hcompile]

end Writes

/-- A request gets the answer of the list, and what is left stands for the list after it. -/
theorem StandsFor.serve {r : Repository} {c : Compiler} {l : Listing} (h : r.StandsFor c l)
    (request : Request) :
    (r.serve request).1 = (l.serve c request).1 ∧
      (r.serve request).2.StandsFor c (l.serve c request).2 := by
  cases request with
  | put id text =>
      rw [Repository.serve, Listing.serve]
      cases hcompile : c.compile text with
      | ok p =>
          obtain ⟨stored, hput, hstored⟩ := h.put_of_ok hcompile id
          rw [hput]
          exact ⟨rfl, hstored⟩
      | error cause =>
          rw [h.put_of_error hcompile id]
          exact ⟨rfl, h⟩
  | remove id => exact ⟨congrArg Answer.present (h.contains id), h.remove id⟩
  | get id => exact ⟨congrArg Answer.rule (h.get? id), h⟩
  | contains id => exact ⟨congrArg Answer.present (h.contains id), h⟩
  | size => exact ⟨congrArg Answer.count h.size, h⟩
  | isEmpty => exact ⟨congrArg Answer.present h.isEmpty, h⟩
  | ids => exact ⟨congrArg Answer.ids h.ids, h⟩
  | snapshot => exact ⟨congrArg Answer.rules h.snapshot, h⟩
  | forEach visit =>
      refine ⟨?_, h⟩
      rw [Repository.serve, Listing.serve, Listing.shown_eq_visited, h.snapshot]
  | hits record => exact ⟨congrArg Answer.ids (h.hits record), h⟩
  | survey record =>
      refine ⟨?_, h⟩
      rw [Repository.serve, Listing.serve, Repository.survey, h.snapshot]

theorem StandsFor.serveAll {r : Repository} {c : Compiler} {l : Listing} (h : r.StandsFor c l)
    (requests : List Request) :
    (r.serveAll requests).1 = (l.serveAll c requests).1 ∧
      (r.serveAll requests).2.StandsFor c (l.serveAll c requests).2 := by
  induction requests generalizing r l with
  | nil => exact ⟨rfl, h⟩
  | cons request requests ih =>
      obtain ⟨hanswer, hnext⟩ := h.serve request
      obtain ⟨hanswers, hlast⟩ := ih hnext
      refine ⟨?_, hlast⟩
      rw [Repository.serveAll, Listing.serveAll, hanswer, hanswers]

/-- After any requests an initially empty phased repository has a well-indexed table, whose index
never points behind its rules, with the entries of the insertion-ordered map; and it has answered
as that map answers. -/
theorem serveAll_empty_phased (c : Compiler) (requests : List Request) :
    ∃ t : RuleTable,
      (((Repository.empty .phased).withCompiler c).serveAll requests).2 = ⟨c, .phased t⟩ ∧
      t.WellIndexed ∧
      (∀ (id : String) (i : Nat), t.index[id]? = some i → i < t.rules.size) ∧
      t.entries = (Listing.serveAll c [] requests).2 ∧
      (((Repository.empty .phased).withCompiler c).serveAll requests).1 =
        (Listing.serveAll c [] requests).1 := by
  obtain ⟨hanswers, t, hlast, hindexed, hentries⟩ := (standsFor_empty c).serveAll requests
  refine ⟨t, hlast, hindexed, ?_, hentries, hanswers⟩
  intro id i hindex
  exact hindexed.lt_size hindex

end Repository

end RecordRules
