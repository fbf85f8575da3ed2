import RecordRules.Proofs.Repository.Modes
import RecordRules.Proofs.Repository.Stored

/-!
Passes over a repository.  Listing the hits and making a survey are two ways to visit the rules, and
they agree on every record.  A rule that fails is counted and otherwise left out, and a change under
one identifier is not seen under the others.
-/

namespace RecordRules

namespace Rule

theorem holdsOn_iff (rule : Rule) (record : Record) :
    rule.holdsOn record = true ↔ rule.predicate.evaluate record = .ok true := by
  simp only [holdsOn]
  rcases rule.predicate.evaluate record with error | hit
  · simp
  · simp

theorem failsOn_iff (rule : Rule) (record : Record) :
    rule.failsOn record = true ↔ ∃ error, rule.predicate.evaluate record = .error error := by
  simp only [failsOn]
  rcases rule.predicate.evaluate record with error | hit
  · simp
  · simp

/-- A rule fails on a record, or it holds, or it is false. -/
theorem fails_or_holds_or_false (rule : Rule) (record : Record) :
    (rule.failsOn record = true ∧ rule.holdsOn record = false ∧
        rule.predicate.evaluate record ≠ .ok false) ∨
      (rule.failsOn record = false ∧ rule.holdsOn record = true ∧
        rule.predicate.evaluate record ≠ .ok false) ∨
      (rule.failsOn record = false ∧ rule.holdsOn record = false ∧
        rule.predicate.evaluate record = .ok false) := by
  simp only [failsOn, holdsOn]
  rcases rule.predicate.evaluate record with error | _ | _
  · simp
  · simp
  · simp

end Rule

/-- Every rule is counted once: as a hit, as a failure, or among those that are false. -/
theorem length_eq_holds_add_fails_add_false (record : Record) (rules : List Rule) :
    rules.length = rules.countP (·.holdsOn record) + rules.countP (·.failsOn record) +
      rules.countP fun rule => rule.predicate.evaluate record = .ok false := by
  induction rules with
  | nil => rfl
  | cons rule rules ih =>
      simp only [List.length_cons, List.countP_cons]
      rcases rule.fails_or_holds_or_false record with
        ⟨hfails, hholds, hfalse⟩ | ⟨hfails, hholds, hfalse⟩ | ⟨hfails, hholds, hfalse⟩
      · simp only [hfails, hholds, hfalse, decide_false, if_true, if_false, Bool.false_eq_true]
        omega
      · simp only [hfails, hholds, hfalse, decide_false, if_true, if_false, Bool.false_eq_true]
        omega
      · simp only [hfails, hholds, hfalse, decide_true, if_true, if_false, Bool.false_eq_true]
        omega

/-! ### Lists in the order of a mode -/

/-- Two lists are the same, as far as a repository of the mode promises an order. -/
def Mode.Same {α : Type} : Mode → List α → List α → Prop
  | .concurrent, xs, ys => xs.Perm ys
  | .phased, xs, ys => xs = ys

namespace Mode.Same

variable {α β : Type} {mode : Mode} {xs ys zs : List α}

theorem refl (mode : Mode) (xs : List α) : mode.Same xs xs := by
  cases mode with
  | concurrent => exact List.Perm.refl xs
  | phased => exact Eq.refl xs

theorem symm (h : mode.Same xs ys) : mode.Same ys xs := by
  cases mode with
  | concurrent => exact List.Perm.symm h
  | phased => exact Eq.symm h

theorem trans (h : mode.Same xs ys) (h' : mode.Same ys zs) : mode.Same xs zs := by
  cases mode with
  | concurrent => exact List.Perm.trans h h'
  | phased => exact Eq.trans h h'

theorem map (h : mode.Same xs ys) (f : α → β) : mode.Same (xs.map f) (ys.map f) := by
  cases mode with
  | concurrent => exact List.Perm.map f h
  | phased => exact congrArg (List.map f) h

theorem filter (h : mode.Same xs ys) (p : α → Bool) :
    mode.Same (xs.filter p) (ys.filter p) := by
  cases mode with
  | concurrent => exact List.Perm.filter p h
  | phased => exact congrArg (List.filter p) h

end Mode.Same

/-! ### The other rules -/

namespace Listing

theorem remove_replace (l : Listing) (id : String) (rule : Rule) :
    (l.replace id rule).remove id = l.remove id := by
  induction l with
  | nil => rfl
  | cons entry l ih =>
      by_cases hid : entry.1 = id
      · simpa [replace, remove, hid] using ih
      · simpa [replace, remove, hid] using ih

theorem remove_put (l : Listing) (id : String) (rule : Rule) :
    (l.put id rule).remove id = l.remove id := by
  by_cases hmem : id ∈ l.map Prod.fst
  · rw [put, if_pos hmem, remove_replace]
  · rw [put_of_not_mem hmem]
    simp [remove]

theorem remove_remove (l : Listing) (id : String) : (l.remove id).remove id = l.remove id := by
  simp [remove]

end Listing

/-- The rules under other identifiers, from the list and from the entries of a table. -/
theorem RuleTable.filter_toList (t : RuleTable) (id : String) :
    t.toList.filter (·.id ≠ id) = (t.entries.remove id).rules := by
  simp only [entries, Listing.remove, Listing.rules, List.filter_map, List.map_map]
  exact (List.map_id _).symm

namespace RuleStore.Coherent

variable {s t : RuleStore} (h : s.Coherent)

include h

/-- Stores in which the same is found under the other identifiers list the same other rules. -/
theorem perm_others (ht : t.Coherent) {id : String}
    (heq : ∀ other, other ≠ id → s.get? other = t.get? other) :
    (s.toList.filter (·.id ≠ id)).Perm (t.toList.filter (·.id ≠ id)) := by
  apply (List.perm_ext_iff_of_nodup (h.nodup_toList.filter _) (ht.nodup_toList.filter _)).2
  intro rule
  simp only [List.mem_filter, decide_eq_true_eq]
  by_cases hid : rule.id = id
  · simp [hid]
  · simp only [h.mem_toList_iff, ht.mem_toList_iff, heq rule.id hid]

/-- To store a rule leaves the rules under other identifiers as they are, and in their order if
there is one. -/
theorem same_install (rule : Rule) :
    s.mode.Same (s.toList.filter (·.id ≠ rule.id))
      ((s.install rule).toList.filter (·.id ≠ rule.id)) := by
  cases s with
  | concurrent rules =>
      apply h.perm_others (h.install rule)
      intro other hother
      rw [h.get?_install, if_neg hother]
  | phased table =>
      have w : table.WellIndexed := h
      change table.toList.filter _ = (table.install rule).toList.filter _
      rw [RuleTable.filter_toList, RuleTable.filter_toList, w.entries_install, Listing.remove_put]

theorem same_erase (id : String) :
    s.mode.Same (s.toList.filter (·.id ≠ id)) ((s.erase id).toList.filter (·.id ≠ id)) := by
  cases s with
  | concurrent rules =>
      apply h.perm_others (h.erase id)
      intro other hother
      rw [h.get?_erase, if_neg hother]
  | phased table =>
      have w : table.WellIndexed := h
      change table.toList.filter _ = (table.erase id).toList.filter _
      rw [RuleTable.filter_toList, RuleTable.filter_toList, w.entries_erase, Listing.remove_remove]

end RuleStore.Coherent

namespace Repository

/-! ### Visitors that see every rule -/

/-- A visitor that keeps a state and never stops. -/
def gather {σ : Type} (note : σ → Rule → σ) (rule : Rule) : StateM σ Bool :=
  fun state => (true, note state rule)

theorem visitWhile_gather {σ : Type} (note : σ → Rule → σ) (rules : List Rule) (state : σ) :
    ((visitWhile (gather note) rules).run state).2 = rules.foldl note state := by
  induction rules generalizing state with
  | nil => rfl
  | cons rule rules ih => exact ih (note state rule)

def addHit (record : Record) (hits : List String) (rule : Rule) : List String :=
  if rule.holdsOn record then hits ++ [rule.id] else hits

theorem foldl_addHit (record : Record) (rules : List Rule) (hits : List String) :
    rules.foldl (addHit record) hits =
      hits ++ (rules.filter (·.holdsOn record)).map (·.id) := by
  induction rules generalizing hits with
  | nil => simp
  | cons rule rules ih =>
      by_cases hrule : rule.holdsOn record
      · simp [addHit, hrule, ih]
      · simp [addHit, hrule, ih]

/-- The hits on a record, noted by a visitor, if a concurrent store visits its rules in this
order. -/
def hitsIn (o : VisitOrder) (r : Repository) (record : Record) : List String :=
  ((visitWhile (gather (addHit record)) (r.visits o)).run []).2

/-- The survey of a record, made by a visitor, if a concurrent store visits its rules in this
order. -/
def surveyIn (o : VisitOrder) (r : Repository) (record : Record) : Survey :=
  ((visitWhile (gather (Survey.visit record)) (r.visits o)).run .empty).2

section Passes

variable (o : VisitOrder) (r : Repository) (record : Record)

theorem hitsIn_eq :
    r.hitsIn o record = ((r.visits o).filter (·.holdsOn record)).map (·.id) := by
  rw [hitsIn, visitWhile_gather, foldl_addHit, List.nil_append]

theorem surveyIn_eq : r.surveyIn o record = .ofRules record (r.visits o) := by
  rw [surveyIn, visitWhile_gather, Survey.ofRules]

/-- The hits and the survey are what visitors make of the rules in the order of the store. -/
theorem hitsIn_listed : r.hitsIn .listed record = r.hits record := by
  rw [hitsIn_eq, visits_listed, hits]

theorem surveyIn_listed : r.surveyIn .listed record = r.survey record := by
  rw [surveyIn_eq, visits_listed, survey]

end Passes

/-- The two passes over the rules agree on a record: they name the rules that evaluate to true, in
the order of the visit, and what is not named has failed or is false. -/
structure PassesAgree (o : VisitOrder) (r : Repository) (record : Record) : Prop where
  hits_eq : r.hitsIn o record = (r.surveyIn o record).hits
  true_eq : r.hitsIn o record =
    ((r.visits o).filter fun rule => rule.predicate.evaluate record = .ok true).map (·.id)
  evaluated_eq : (r.surveyIn o record).evaluated = r.size
  failed_eq : (r.surveyIn o record).failed = (r.visits o).countP (·.failsOn record)
  rest_eq : (r.surveyIn o record).evaluated = (r.surveyIn o record).hits.length +
    (r.surveyIn o record).failed + (r.visits o).countP fun rule =>
      rule.predicate.evaluate record = .ok false

theorem passesAgree (o : VisitOrder) (r : Repository) (record : Record) :
    PassesAgree o r record := by
  have hsurvey := (r.surveyIn_eq o record).trans (Survey.ofRules_eq record (r.visits o))
  constructor
  · rw [hsurvey, hitsIn_eq]
  · rw [hitsIn_eq]
    congr 1
    apply List.filter_congr
    intro rule _
    rw [Bool.eq_iff_iff, rule.holdsOn_iff, decide_eq_true_iff]
  · rw [hsurvey, ← length_visits o r]
  · rw [hsurvey]
  · rw [hsurvey]
    simp only [List.length_map, ← List.countP_eq_length_filter]
    exact length_eq_holds_add_fails_add_false record (r.visits o)

/-- The order of the visit changes the order of the hits, and no count. -/
theorem perm_hitsIn (r : Repository) (o o' : VisitOrder) (record : Record) :
    (r.hitsIn o record).Perm (r.hitsIn o' record) := by
  rw [hitsIn_eq, hitsIn_eq]
  exact (((r.perm_visits o).trans (r.perm_visits o').symm).filter _).map _

theorem failed_surveyIn (r : Repository) (o o' : VisitOrder) (record : Record) :
    (r.surveyIn o record).failed = (r.surveyIn o' record).failed := by
  rw [(passesAgree o r record).failed_eq, (passesAgree o' r record).failed_eq]
  exact ((r.perm_visits o).trans (r.perm_visits o').symm).countP_eq _

/-! ### Edits of a repository -/

/-- What every put keeps is kept when random rules are put. -/
theorem putRandomFrom_induct {P : Repository → Prop}
    (hput : ∀ r id text stored, P r → r.put id text = .ok stored → P stored) (rules : RandomRules)
    (done count : Nat) {r : Repository} (h : P r) (words : Words) :
    P ((Repository.putRandomFrom rules done count r).run words).1.2 := by
  induction count generalizing r done words with
  | zero => exact h
  | succ count ih =>
      rw [Repository.putRandomFrom, Draw.run_bind]
      cases hstored : r.put (randomId done) (rules.text.run words).1 with
      | error rejection => exact h
      | ok stored => exact ih (done + 1) (hput r _ _ stored h hstored) _

theorem put_eq_ok_iff (r : Repository) (id text : String) (stored : Repository) :
    r.put id text = .ok stored ↔
      ∃ p, r.compiler.compile text = .ok p ∧
        stored = ⟨r.compiler, r.store.install ⟨id, text, p⟩⟩ := by
  rw [put, Rule.compile]
  cases r.compiler.compile text with
  | error cause => simp
  | ok p => simp [eq_comm]

theorem mode_put {r stored : Repository} {id text : String} (h : r.put id text = .ok stored) :
    stored.mode = r.mode := by
  obtain ⟨p, -, rfl⟩ := (put_eq_ok_iff r id text stored).1 h
  exact RuleStore.mode_install _ _

theorem mode_edit (r : Repository) (e : Edit) : (r.edit e).mode = r.mode := by
  cases e with
  | put id text =>
      rw [edit]
      cases hput : r.put id text with
      | ok stored => exact mode_put hput
      | error rejection => rfl
  | remove id => exact RuleStore.mode_erase r.store id
  | useCompiler c => rfl
  | putRandom rules count words =>
      exact putRandomFrom_induct (P := fun s => s.mode = r.mode)
        (fun _ _ _ _ hmode hput => (mode_put hput).trans hmode) rules 0 count rfl words

theorem mode_editAll (r : Repository) (edits : List Edit) : (r.editAll edits).mode = r.mode := by
  induction edits generalizing r with
  | nil => rfl
  | cons e edits ih => exact (ih (r.edit e)).trans (r.mode_edit e)

/-- No edit brings the store into disorder. -/
theorem coherent_editAll {r : Repository} (h : r.store.Coherent) (edits : List Edit) :
    (r.editAll edits).store.Coherent := by
  have hkeeps : r.Keeps fun _ => True := ⟨h, fun _ _ => trivial⟩
  exact (hkeeps.editAll (fun _ _ _ _ _ _ => trivial) (storesUnder_true _ edits)).coherent

section Frame

variable {r : Repository} (h : r.store.Coherent)

include h

/-- A put, accepted or not, leaves the rules under other identifiers as they are. -/
theorem same_edit_put (id text : String) :
    r.mode.Same (r.snapshot.filter (·.id ≠ id))
      ((r.edit (.put id text)).snapshot.filter (·.id ≠ id)) := by
  rw [edit]
  cases hput : r.put id text with
  | error rejection => exact .refl _ _
  | ok stored =>
      obtain ⟨p, -, rfl⟩ := (put_eq_ok_iff r id text stored).1 hput
      exact h.same_install ⟨id, text, p⟩

theorem same_edit_remove (id : String) :
    r.mode.Same (r.snapshot.filter (·.id ≠ id))
      ((r.edit (.remove id)).snapshot.filter (·.id ≠ id)) :=
  h.same_erase id

end Frame

theorem same_visits (o : VisitOrder) (r : Repository) :
    r.mode.Same (r.visits o) r.snapshot := by
  rw [visits]
  cases r.mode with
  | concurrent => exact o.perm r.snapshot
  | phased => exact Eq.refl r.snapshot

/-- The hits without an identifier are the hits among the other rules. -/
theorem filter_hitsIn (o : VisitOrder) (r : Repository) (record : Record) (id : String) :
    (r.hitsIn o record).filter (· ≠ id) =
      (((r.visits o).filter (·.id ≠ id)).filter (·.holdsOn record)).map (·.id) := by
  rw [hitsIn_eq, List.filter_map, List.filter_filter, List.filter_filter]
  congr 1
  apply List.filter_congr
  intro rule _
  exact Bool.and_comm _ _

/-- Repositories with the same rules under other identifiers have the same other hits. -/
theorem same_hitsIn {r s : Repository} {id : String} (hmode : s.mode = r.mode)
    (h : r.mode.Same (r.snapshot.filter (·.id ≠ id)) (s.snapshot.filter (·.id ≠ id)))
    (o o' : VisitOrder) (record : Record) :
    r.mode.Same ((r.hitsIn o record).filter (· ≠ id))
      ((s.hitsIn o' record).filter (· ≠ id)) := by
  have hr := (same_visits o r).filter (·.id ≠ id)
  have hs := (same_visits o' s).filter (·.id ≠ id)
  rw [hmode] at hs
  rw [filter_hitsIn, filter_hitsIn]
  exact (((hr.trans h).trans hs.symm).filter _).map _

/-- After any edits, in whatever order the rules are visited, the hits on a record are those of its
survey: the rules that evaluate to true.  The survey counts every rule once, and those that fail
apart.  Both are what the repository itself answers if it visits its rules as it lists them.  A put
or a removal leaves the hits under other identifiers as they are, and in a phased repository in
their order. -/
theorem hits_of_edited (mode : Mode) (edits : List Edit) :
    let r := (empty mode).editAll edits
    (∀ o record, PassesAgree o r record) ∧
      (∀ record, r.hitsIn .listed record = r.hits record ∧
        r.surveyIn .listed record = r.survey record) ∧
      ∀ id text o o' record,
        mode.Same ((r.hitsIn o record).filter (· ≠ id))
            (((r.edit (.put id text)).hitsIn o' record).filter (· ≠ id)) ∧
          mode.Same ((r.hitsIn o record).filter (· ≠ id))
            (((r.edit (.remove id)).hitsIn o' record).filter (· ≠ id)) := by
  intro r
  have hcoherent : r.store.Coherent := coherent_editAll (RuleStore.coherent_empty mode) edits
  have hmode : r.mode = mode := (mode_editAll _ edits).trans (RuleStore.mode_empty mode)
  refine ⟨?_, ?_, ?_⟩
  · intro o record
    exact passesAgree o r record
  · intro record
    exact ⟨r.hitsIn_listed record, r.surveyIn_listed record⟩
  · intro id text o o' record
    rw [← hmode]
    constructor
    · exact same_hitsIn (r.mode_edit _) (same_edit_put hcoherent id text) o o' record
    · exact same_hitsIn (r.mode_edit _) (same_edit_remove hcoherent id) o o' record

end Repository

end RecordRules
