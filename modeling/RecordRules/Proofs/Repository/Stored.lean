import RecordRules.Proofs.Random.Record
import RecordRules.Proofs.Repository.Store
import RecordRules.Proofs.Repository.Survey
import RecordRules.Proofs.Typing
import RecordRules.Repository.Fill

/-!
What stored rules are.  However a repository came about, each of its rules is what the text of the
rule compiles to.  If all of them were accepted under one schema, then on a record that has the
fields of this schema none of them fails, and the hits are the rules that are true.
-/

namespace RecordRules

/-- A way to change a repository. -/
inductive Edit where
  | put (id text : String)
  | remove (id : String)
  | useCompiler (c : Compiler)
  | putRandom (rules : RandomRules) (count : Nat) (words : Words)

def Edit.stores : Edit → Bool
  | .put _ _ | .putRandom _ _ _ => true
  | .remove _ | .useCompiler _ => false

/-- The record has every field of the schema, with a value of its kind. -/
def Record.Covers (s : Schema) (r : Record) : Prop :=
  ∀ f ∈ s.fields, (r.get? f.name).map Value.kind = some f.kind

instance (s : Schema) (r : Record) : Decidable (r.Covers s) :=
  inferInstanceAs (Decidable (∀ f ∈ s.fields, (r.get? f.name).map Value.kind = some f.kind))

/-- Whether the text of the rule is true on a record in ordinary logic. -/
def Rule.trueOn (rule : Rule) (record : Record) : Bool :=
  match Expr.parse rule.source with
  | .ok e => e.truth record
  | .error _ => false

namespace Repository

/-- The repository after an edit.  A text that is rejected changes nothing. -/
def edit (r : Repository) : Edit → Repository
  | .put id text =>
      match r.put id text with
      | .ok stored => stored
      | .error _ => r
  | .remove id => (r.remove id).2
  | .useCompiler c => r.withCompiler c
  | .putRandom rules count words => ((r.putRandom rules count).run words).1.2

def editAll (r : Repository) (edits : List Edit) : Repository :=
  edits.foldl edit r

/-- Whenever one of the edits may store rules, the compiler is an allowed one. -/
def StoresUnder (allowed : Compiler → Prop) : Repository → List Edit → Prop
  | _, [] => True
  | r, e :: edits => (e.stores = true → allowed r.compiler) ∧ StoresUnder allowed (r.edit e) edits

/-- The store is coherent and all its rules have a property. -/
structure Keeps (Q : Rule → Prop) (r : Repository) : Prop where
  coherent : r.store.Coherent
  forall_mem : ∀ rule ∈ r.snapshot, Q rule

end Repository

/-- Every rule that the compiler accepts has a property. -/
def Compiler.Grants (c : Compiler) (Q : Rule → Prop) : Prop :=
  ∀ id text rule, Rule.compile c id text = .ok rule → Q rule

/-! ### Properties that every accepted rule has -/

namespace RuleStore

variable {s : RuleStore} (h : s.Coherent)

include h

theorem Coherent.mem_toList_install {rule other : Rule}
    (hmem : other ∈ (s.install rule).toList) : other = rule ∨ other ∈ s.toList := by
  rw [(h.install rule).mem_toList_iff, h.get?_install] at hmem
  split at hmem
  · cases hmem
    exact .inl rfl
  · exact .inr ((h.mem_toList_iff other).2 hmem)

theorem Coherent.mem_toList_erase {id : String} {other : Rule}
    (hmem : other ∈ (s.erase id).toList) : other ∈ s.toList := by
  rw [(h.erase id).mem_toList_iff, h.get?_erase] at hmem
  split at hmem
  · cases hmem
  · exact (h.mem_toList_iff other).2 hmem

end RuleStore

namespace Repository

variable {Q : Rule → Prop} {r : Repository}

theorem keeps_empty (Q : Rule → Prop) (mode : Mode) : (empty mode).Keeps Q where
  coherent := RuleStore.coherent_empty mode
  forall_mem rule hmem := by
    have hget := ((RuleStore.coherent_empty mode).mem_toList_iff rule).1 hmem
    rw [RuleStore.get?_empty] at hget
    cases hget

theorem compiler_of_put {id text : String} {stored : Repository}
    (hput : r.put id text = .ok stored) : stored.compiler = r.compiler := by
  rw [Repository.put] at hput
  split at hput
  · cases hput
  · cases hput
    rfl

theorem Keeps.put (h : r.Keeps Q) (hgrants : r.compiler.Grants Q) {id text : String}
    {stored : Repository} (hput : r.put id text = .ok stored) : stored.Keeps Q := by
  rw [Repository.put] at hput
  cases hcompile : Rule.compile r.compiler id text with
  | error rejection =>
      rw [hcompile] at hput
      cases hput
  | ok rule =>
      rw [hcompile] at hput
      cases hput
      refine ⟨h.coherent.install rule, ?_⟩
      intro other hother
      rcases h.coherent.mem_toList_install hother with rfl | hold
      · exact hgrants id text _ hcompile
      · exact h.forall_mem other hold

theorem Keeps.remove (h : r.Keeps Q) (id : String) : (r.remove id).2.Keeps Q where
  coherent := h.coherent.erase id
  forall_mem rule hmem := h.forall_mem rule (h.coherent.mem_toList_erase hmem)

/-- Random rules are put one after the other, and the run ends at the first that is rejected. -/
theorem Keeps.putRandomFrom (h : r.Keeps Q) (hgrants : r.compiler.Grants Q)
    (rules : RandomRules) (done count : Nat) (words : Words) :
    ((Repository.putRandomFrom rules done count r).run words).1.2.Keeps Q := by
  induction count generalizing r done words with
  | zero => exact h
  | succ count ih =>
      rw [Repository.putRandomFrom, Draw.run_bind]
      cases hput : r.put (randomId done) (rules.text.run words).1 with
      | error rejection => exact h
      | ok stored =>
          have hcompiler := compiler_of_put hput
          exact ih (h.put hgrants hput) (hcompiler ▸ hgrants) (done + 1) (rules.text.run words).2

/-- Only a change of the compiler changes the compiler. -/
theorem compiler_putRandomFrom (rules : RandomRules) (done count : Nat) (words : Words) :
    ((Repository.putRandomFrom rules done count r).run words).1.2.compiler = r.compiler := by
  induction count generalizing r done words with
  | zero => rfl
  | succ count ih =>
      rw [Repository.putRandomFrom, Draw.run_bind]
      cases hput : r.put (randomId done) (rules.text.run words).1 with
      | error rejection => rfl
      | ok stored =>
          rw [← compiler_of_put hput]
          exact ih (done + 1) (rules.text.run words).2

theorem compiler_edit (r : Repository) (e : Edit) :
    (r.edit e).compiler =
      match e with
      | .useCompiler c => c
      | _ => r.compiler := by
  cases e with
  | put id text =>
      rw [edit]
      cases hput : r.put id text with
      | ok stored => exact compiler_of_put hput
      | error rejection => rfl
  | remove id => rfl
  | useCompiler c => rfl
  | putRandom rules count words => exact compiler_putRandomFrom rules 0 count words

theorem Keeps.edit (h : r.Keeps Q) (e : Edit) (hgrants : e.stores = true → r.compiler.Grants Q) :
    (r.edit e).Keeps Q := by
  cases e with
  | put id text =>
      rw [Repository.edit]
      cases hput : r.put id text with
      | ok stored => exact h.put (hgrants rfl) hput
      | error rejection => exact h
  | remove id => exact h.remove id
  | useCompiler c => exact ⟨h.coherent, h.forall_mem⟩
  | putRandom rules count words => exact h.putRandomFrom (hgrants rfl) rules 0 count words

/-- What every allowed compiler grants holds of all rules, whatever the edits were. -/
theorem Keeps.editAll (h : r.Keeps Q) {allowed : Compiler → Prop}
    (hgrants : ∀ c, allowed c → c.Grants Q) {edits : List Edit}
    (hedits : StoresUnder allowed r edits) : (r.editAll edits).Keeps Q := by
  induction edits generalizing r with
  | nil => exact h
  | cons e edits ih => exact ih (h.edit e fun hstores => hgrants _ (hedits.1 hstores)) hedits.2

theorem storesUnder_true (r : Repository) (edits : List Edit) :
    StoresUnder (fun _ => True) r edits := by
  induction edits generalizing r with
  | nil => trivial
  | cons e edits ih => exact ⟨fun _ => trivial, ih _⟩

end Repository

/-! ### What compilers grant -/

namespace Compiler

/-- A check against a schema does not change the predicate. -/
theorem compile_untyped_of_compile {c : Compiler} {text : String} {p : Predicate}
    (h : c.compile text = .ok p) : untyped.compile text = .ok p := by
  rw [compile] at h ⊢
  cases hparse : Expr.parse text with
  | error cause =>
      rw [hparse] at h
      cases h
  | ok e =>
      rw [hparse] at h
      dsimp only [accept] at h
      split at h
      · cases h
      · cases h
        rfl

/-- The untyped compiler, given its text, makes the same predicate of the rule. -/
theorem grants_untyped (c : Compiler) :
    c.Grants fun rule => untyped.compile rule.source = .ok rule.predicate := by
  intro id text rule h
  obtain ⟨p, hp, rfl⟩ := (Rule.compile_eq_ok_iff c id text rule).1 h
  exact compile_untyped_of_compile hp

theorem grants_self (c : Compiler) :
    c.Grants fun rule => c.compile rule.source = .ok rule.predicate := by
  intro id text rule h
  obtain ⟨p, hp, rfl⟩ := (Rule.compile_eq_ok_iff c id text rule).1 h
  exact hp

end Compiler

/-! ### Rules of a schema on records that cover it -/

theorem Record.Covers.fits {s : Schema} {r : Record} (h : r.Covers s) : r.Fits s := by
  intro f hf value hvalue
  have hkind := h f hf
  rw [hvalue] at hkind
  exact Option.some.inj hkind

/-- A leaf that fits is over a field of the schema, so a record that covers the schema has it. -/
theorem Schema.Admits.isSome_get? {s : Schema} {leaf : Expr} (hleaf : s.Admits leaf) {r : Record}
    (h : r.Covers s) {name : String} (hname : name ∈ leaf.names) : (r.get? name).isSome := by
  have hfield : ∀ f ∈ s.fields, (r.get? f.name).isSome := by
    intro f hf
    rw [← Option.isSome_map, h f hf]
    rfl
  rcases hleaf with ⟨hf, _⟩ | ⟨hf, _⟩
  · obtain rfl := List.mem_singleton.1 hname
    exact hfield _ hf
  · obtain rfl := List.mem_singleton.1 hname
    exact hfield _ hf

/-- A rule of a schema has on every record that covers it the truth value of its text. -/
theorem Rule.evaluate_eq_trueOn {s : Schema} {rule : Rule}
    (hrule : (Compiler.withSchema s).compile rule.source = .ok rule.predicate) {record : Record}
    (h : record.Covers s) : rule.predicate.evaluate record = .ok (rule.trueOn record) := by
  rw [Compiler.compile] at hrule
  rw [trueOn]
  cases hparse : Expr.parse rule.source with
  | error cause =>
      rw [hparse] at hrule
      cases hrule
  | ok e =>
      rw [hparse] at hrule
      obtain ⟨hleaves, hpredicate⟩ := (Compiler.accept_withSchema_eq_ok_iff s _ e _).1 hrule
      rw [hpredicate]
      apply (Predicate.means_ofExpr hleaves h.fits).complete
      intro name hname
      rw [Predicate.ofExpr, Expr.fields, List.mem_eraseDups, Expr.names_eq_flatMap_leaves,
        List.mem_flatMap] at hname
      obtain ⟨leaf, hleaf, hname⟩ := hname
      exact (hleaves leaf hleaf).isSome_get? h hname

theorem Survey.ofRules_of_settled {record : Record} {rules : List Rule}
    (h : ∀ rule ∈ rules, rule.predicate.evaluate record = .ok (rule.trueOn record)) :
    ofRules record rules = ⟨(rules.filter (·.trueOn record)).map (·.id), rules.length, 0⟩ := by
  have hholds : rules.filter (·.holdsOn record) = rules.filter (·.trueOn record) := by
    apply List.filter_congr
    intro rule hrule
    rw [Rule.holdsOn, h rule hrule]
  have hfails : rules.countP (·.failsOn record) = 0 := by
    rw [List.countP_eq_zero]
    intro rule hrule
    rw [Rule.failsOn, h rule hrule]
    exact Bool.false_ne_true
  rw [ofRules_eq, hholds, hfails]

theorem RandomRecords.Completes.covers {s : Schema} {c : RecordSettings} {r : Record}
    (h : Completes s c r) : r.Covers s := by
  intro f hf
  obtain ⟨value, hget, hvalue⟩ := h.exists_value f hf
  rw [hget, Option.map_some, hvalue.kind_eq]

namespace Repository

/-- After any edits each rule stands under its identifier and has the predicate that its text
compiles to without a schema.  If all rules were stored under one schema, then on every record that
covers it, such as the random ones, no rule fails and the hits are the rules that are true. -/
theorem stored_rules (mode : Mode) (edits : List Edit) :
    let r := (empty mode).editAll edits
    (∀ id rule, r.get? id = some rule →
        rule.id = id ∧ Compiler.untyped.compile rule.source = .ok rule.predicate) ∧
      (∀ rule ∈ r.snapshot, r.get? rule.id = some rule) ∧
      ∀ s, StoresUnder (· = .withSchema s) (empty mode) edits →
        (∀ record : Record, record.Covers s →
          r.survey record = ⟨(r.snapshot.filter (·.trueOn record)).map (·.id), r.size, 0⟩) ∧
        ∀ (g : RandomRecords) count words, g.schema = s →
          ∀ record ∈ ((g.records count).run words).1, record.Covers s := by
  intro r
  have hfaithful : r.Keeps fun rule => Compiler.untyped.compile rule.source = .ok rule.predicate :=
    (keeps_empty _ mode).editAll (fun c _ => c.grants_untyped) (storesUnder_true _ edits)
  refine ⟨?_, ?_, ?_⟩
  · intro id rule hget
    have hid := hfaithful.coherent.id_eq_of_get? hget
    have hmem := (hfaithful.coherent.mem_toList_iff rule).2 (hid ▸ hget)
    exact ⟨hid, hfaithful.forall_mem rule hmem⟩
  · intro rule hmem
    exact (hfaithful.coherent.mem_toList_iff rule).1 hmem
  · intro s hedits
    have htyped : r.Keeps fun rule =>
        (Compiler.withSchema s).compile rule.source = .ok rule.predicate := by
      apply (keeps_empty _ mode).editAll _ hedits
      rintro c rfl
      exact (Compiler.withSchema s).grants_self
    constructor
    · intro record hrecord
      rw [survey, size, RuleStore.Coherent.size_eq]
      apply Survey.ofRules_of_settled
      intro rule hmem
      exact Rule.evaluate_eq_trueOn (htyped.forall_mem rule hmem) hrecord
    · rintro g count words rfl record hrecord
      have hrecords := (g.yields_records Words.lasting_true count words trivial).1
      exact (hrecords.2 record hrecord).covers

/-- A repository of the payment workload with a rule that is rejected, one that is removed and
three random ones, on a record with all seven fields. -/
theorem stored_rules_payments :
    let edits : List Edit :=
      [.useCompiler (.withSchema .payments), .put "prod" "is_vip and env == \"prod\"",
        .put "mistyped" "env == 1", .put "risky" "high_risk_ip", .remove "prod",
        .putRandom (.standard .payments 5) 3 (.ofListed #[] 7)]
    let r := (empty .concurrent).editAll edits
    let record := Record.ofList
      [("is_vip", .bool true), ("blacklisted", .bool false), ("email_verified", .bool true),
        ("high_risk_ip", .bool true), ("env", .str "test_env"), ("payment_method", .str "XYZ"),
        ("user_id", .int 12345)]
    StoresUnder (· = .withSchema .payments) (empty .concurrent) edits ∧
      record.Covers .payments ∧
        r.survey record = ⟨(r.snapshot.filter (·.trueOn record)).map (·.id), r.size, 0⟩ := by
  intro edits r record
  have hedits : StoresUnder (· = .withSchema .payments) (empty .concurrent) edits := by
    simp [edits, StoresUnder, Edit.stores, compiler_edit]
  have hrecord : record.Covers .payments := by decide +kernel
  obtain ⟨-, -, htyped⟩ := stored_rules .concurrent edits
  exact ⟨hedits, hrecord, (htyped .payments hedits).1 record hrecord⟩

end Repository

end RecordRules
