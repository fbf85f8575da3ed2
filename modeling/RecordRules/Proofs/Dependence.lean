import RecordRules.Proofs.Checking
import RecordRules.Proofs.Repository.Passes

/-!
What evaluation depends on.  A compiled predicate reads only the fields that it declares, so records
that agree on these are not told apart.  Its errors are true of the record: a field that it misses
is not there, and one that it finds mistyped holds a value of another kind than a leaf asks for.
-/

namespace RecordRules

/-- Some compiler makes this predicate of the expression, or of a text that reads as it. -/
def Predicate.CompiledFrom (p : Predicate) (e : Expr) : Prop :=
  ∃ c : Compiler, c.compileExpr e = .ok p ∨
    ∃ text, Expr.parse text = .ok e ∧ c.compile text = .ok p

/-- Each of the fields has the same value in both records, or is in neither. -/
def Record.AgreeOn (fields : List String) (r s : Record) : Prop :=
  ∀ field ∈ fields, r.get? field = s.get? field

instance (fields : List String) (r s : Record) : Decidable (r.AgreeOn fields s) :=
  inferInstanceAs (Decidable (∀ field ∈ fields, r.get? field = s.get? field))

/-- Some leaf of the tree asks that the field be of a kind. -/
inductive Expr.Requires (e : Expr) (field : String) : Kind → Prop
  | eq {value : Value} : .eq field value ∈ e.leaves → e.Requires field value.kind
  | flag : .flag field ∈ e.leaves → e.Requires field .boolean

/-- What an error of the predicate of a tree says is so: it is about a declared field, which the
record does not have, or has with a value of another kind than a leaf requires. -/
inductive EvalError.TrueOf (p : Predicate) (e : Expr) (r : Record) : EvalError → Prop
  | missingField {field : String} : field ∈ p.fields → r.get? field = none →
      TrueOf p e r (.missingField field)
  | typeMismatch {field : String} {expected : Kind} {value : Value} : field ∈ p.fields →
      r.get? field = some value → value.kind ≠ expected → e.Requires field expected →
      TrueOf p e r (.typeMismatch field expected value.kind)

/-! ### Compiled predicates -/

namespace Compiler

theorem accept_eq_ok_iff (c : Compiler) (text : String) (e : Expr) (p : Predicate) :
    c.accept text e = .ok p ↔ c.misuse? e = none ∧ p = .ofExpr e := by
  rw [accept]
  cases c.misuse? e with
  | none => simp [eq_comm]
  | some misuse => simp

theorem compile_eq_ok_iff (c : Compiler) (text : String) (p : Predicate) :
    c.compile text = .ok p ↔ ∃ e, Expr.parse text = .ok e ∧ c.accept text e = .ok p := by
  rw [compile]
  cases Expr.parse text with
  | error cause => simp
  | ok e => simp

end Compiler

/-- There is one predicate that compilers make of an expression. -/
theorem Predicate.compiledFrom_iff (p : Predicate) (e : Expr) :
    p.CompiledFrom e ↔ p = .ofExpr e := by
  constructor
  · rintro ⟨c, h | ⟨text, hparse, h⟩⟩
    · exact ((c.accept_eq_ok_iff _ e p).1 h).2
    · rw [c.compile_of_parse hparse] at h
      exact ((c.accept_eq_ok_iff _ e p).1 h).2
  · rintro rfl
    exact ⟨.untyped, .inl rfl⟩

theorem Compiler.grants_compiledFrom (c : Compiler) :
    c.Grants fun rule => ∃ e, rule.predicate.CompiledFrom e := by
  intro id text rule h
  obtain ⟨p, hcompile, rfl⟩ := (Rule.compile_eq_ok_iff c id text rule).1 h
  obtain ⟨e, hparse, -⟩ := (c.compile_eq_ok_iff text p).1 hcompile
  exact ⟨e, c, .inr ⟨text, hparse, hcompile⟩⟩

namespace Expr

theorem mem_fields_iff (e : Expr) (name : String) : name ∈ e.fields ↔ name ∈ e.names := by
  rw [fields, List.mem_eraseDups]

/-- The walk over a tree looks up the names at its leaves and no others. -/
theorem walk_congr {e : Expr} {r s : Record} (h : r.AgreeOn e.names s) : e.walk r = e.walk s := by
  induction e with
  | eq field value | flag field => simp only [walk, h field (List.mem_singleton_self field)]
  | and left right ihl ihr | or left right ihl ihr =>
      have hparts := List.forall_mem_append.1 h
      simp only [walk, ihl hparts.1, ihr hparts.2]
  | not operand ih => simp only [walk, ih h]

/-- A comparison fails where the field is missing, or holds a value of another kind. -/
theorem walk_eq_eq_error_iff {r : Record} {field : String} {value : Value} {error : EvalError} :
    (Expr.eq field value).walk r = .error error ↔
      r.get? field = none ∧ error = .missingField field ∨
        ∃ actual, r.get? field = some actual ∧ actual.kind ≠ value.kind ∧
          error = .typeMismatch field value.kind actual.kind := by
  simp only [walk]
  cases r.get? field with
  | none => simp [eq_comm]
  | some actual =>
      by_cases hkind : actual.kind = value.kind
      · simp [hkind]
      · simp [hkind, @eq_comm _ error]

theorem walk_flag_eq_error_iff {r : Record} {field : String} {error : EvalError} :
    (Expr.flag field).walk r = .error error ↔
      r.get? field = none ∧ error = .missingField field ∨
        ∃ actual, r.get? field = some actual ∧ actual.kind ≠ .boolean ∧
          error = .typeMismatch field .boolean actual.kind := by
  simp only [walk]
  cases r.get? field with
  | none => simp [eq_comm]
  | some actual =>
      cases actual with
      | bool b => simp [Value.kind]
      | int i | str text => simp [Value.kind, eq_comm]

/-- An error of a leaf says what is so in the record. -/
theorem trueOf_of_leaf {e leaf : Expr} (hleaf : leaf ∈ e.leaves) {r : Record} {error : EvalError}
    (h : leaf.walk r = .error error) : error.TrueOf (.ofExpr e) e r := by
  rcases eq_or_flag_of_mem_leaves hleaf with ⟨field, value, rfl⟩ | ⟨field, rfl⟩
  · have hfield := mem_fields_of_mem_leaves hleaf (List.mem_singleton_self field)
    rcases walk_eq_eq_error_iff.1 h with ⟨hget, rfl⟩ | ⟨actual, hget, hkind, rfl⟩
    · exact .missingField hfield hget
    · exact .typeMismatch hfield hget hkind (.eq hleaf)
  · have hfield := mem_fields_of_mem_leaves hleaf (List.mem_singleton_self field)
    rcases walk_flag_eq_error_iff.1 h with ⟨hget, rfl⟩ | ⟨actual, hget, hkind, rfl⟩
    · exact .missingField hfield hget
    · exact .typeMismatch hfield hget hkind (.flag hleaf)

end Expr

namespace Predicate

theorem evaluate_congr {e : Expr} {r s : Record} (h : r.AgreeOn (ofExpr e).fields s) :
    (ofExpr e).evaluate r = (ofExpr e).evaluate s := by
  have hnames : r.AgreeOn e.names s := by
    intro name hname
    exact h name ((e.mem_fields_iff name).2 hname)
  calc (ofExpr e).evaluate r
    _ = e.walk r := e.evaluate_eq_walk r
    _ = e.walk s := Expr.walk_congr hnames
    _ = (ofExpr e).evaluate s := (e.evaluate_eq_walk s).symm

theorem trueOf_of_evaluate {e : Expr} {r : Record} {error : EvalError}
    (h : (ofExpr e).evaluate r = .error error) : error.TrueOf (ofExpr e) e r := by
  have hwalk : e.walk r = .error error := (e.evaluate_eq_walk r).symm.trans h
  obtain ⟨leaf, hleaf, herror⟩ := Expr.exists_leaf_of_walk_eq_error hwalk
  exact Expr.trueOf_of_leaf hleaf herror

end Predicate

/-! ### Repositories -/

/-- Records on which each rule evaluates alike have the same survey. -/
theorem Survey.ofRules_congr {r s : Record} {rules : List Rule}
    (h : ∀ rule ∈ rules, rule.predicate.evaluate r = rule.predicate.evaluate s) :
    ofRules r rules = ofRules s rules := by
  have hholds : rules.filter (·.holdsOn r) = rules.filter (·.holdsOn s) := by
    apply List.filter_congr
    intro rule hrule
    simp only [Rule.holdsOn, h rule hrule]
  have hfails : rules.countP (·.failsOn r) = rules.countP (·.failsOn s) := by
    apply List.countP_congr
    intro rule hrule
    simp only [Rule.failsOn, h rule hrule]
  rw [ofRules_eq, ofRules_eq, hholds, hfails]

namespace Repository

/-- Every stored rule is compiled, whatever the edits were. -/
theorem exists_compiledFrom (mode : Mode) (edits : List Edit) :
    ∀ rule ∈ ((empty mode).editAll edits).snapshot, ∃ e, rule.predicate.CompiledFrom e := by
  have hkeeps : ((empty mode).editAll edits).Keeps fun rule =>
      ∃ e, rule.predicate.CompiledFrom e :=
    (keeps_empty _ mode).editAll (fun c _ => c.grants_compiledFrom) (storesUnder_true _ edits)
  exact hkeeps.forall_mem

theorem mem_snapshot_of_mem_visits {o : VisitOrder} {r : Repository} {rule : Rule}
    (h : rule ∈ r.visits o) : rule ∈ r.snapshot :=
  (r.perm_visits o).mem_iff.1 h

/-- A compiled predicate gives the same result, or the same error, on records that agree on the
fields that it declares, and its errors are true of the record and of the expression.  Records that
agree on the fields of all stored rules have the same hits and the same survey. -/
theorem evaluate_depends_on_fields :
    (∀ (p : Predicate) (e : Expr), p.CompiledFrom e →
        (∀ r s : Record, r.AgreeOn p.fields s → p.evaluate r = p.evaluate s) ∧
          ∀ (r : Record) (error : EvalError), p.evaluate r = .error error →
            error.TrueOf p e r) ∧
      ∀ mode edits o (r s : Record),
        let repository := (empty mode).editAll edits
        (∀ rule ∈ repository.snapshot, r.AgreeOn rule.predicate.fields s) →
          repository.hitsIn o r = repository.hitsIn o s ∧
            repository.surveyIn o r = repository.surveyIn o s := by
  constructor
  · intro p e hp
    obtain rfl := (p.compiledFrom_iff e).1 hp
    constructor
    · intro r s h
      exact Predicate.evaluate_congr h
    · intro r error h
      exact Predicate.trueOf_of_evaluate h
  · intro mode edits o r s repository h
    have hsurvey : repository.surveyIn o r = repository.surveyIn o s := by
      rw [surveyIn_eq, surveyIn_eq]
      apply Survey.ofRules_congr
      intro rule hrule
      have hmem := mem_snapshot_of_mem_visits hrule
      obtain ⟨e, hcompiled⟩ := exists_compiledFrom mode edits rule hmem
      have hagree := h rule hmem
      rw [(rule.predicate.compiledFrom_iff e).1 hcompiled] at hagree ⊢
      exact Predicate.evaluate_congr hagree
    refine ⟨?_, hsurvey⟩
    rw [(passesAgree o repository r).hits_eq, (passesAgree o repository s).hits_eq, hsurvey]

/-- Two records that differ in a field that no rule names, with a user number that is a string: the
rule over it fails in the same way on both, and says so truly. -/
theorem evaluate_depends_on_fields_mistyped :
    let text := "not blacklisted and user_id == 7"
    let e := Expr.and (.not (.flag "blacklisted")) (.eq "user_id" (.int 7))
    let r := Record.ofList [("blacklisted", .bool false), ("user_id", .str "7")]
    let s := r.insert "is_vip" (.bool true)
    let repository := (empty .concurrent).editAll [.put "seven" text]
    let error := EvalError.typeMismatch "user_id" .integer .string
    (Predicate.ofExpr e).CompiledFrom e ∧ r.AgreeOn (Predicate.ofExpr e).fields s ∧
      (Predicate.ofExpr e).evaluate s = .error error ∧ error.TrueOf (.ofExpr e) e r ∧
        (∀ rule ∈ repository.snapshot, r.AgreeOn rule.predicate.fields s) ∧
          repository.surveyIn .listed r = repository.surveyIn .listed s := by
  intro text e r s repository error
  have hcompiled : (Predicate.ofExpr e).CompiledFrom e :=
    ⟨.withSchema .payments, .inr ⟨text, by decide +kernel, by decide +kernel⟩⟩
  have hagree : r.AgreeOn (Predicate.ofExpr e).fields s := by decide +kernel
  have herror : (Predicate.ofExpr e).evaluate r = .error error := by decide +kernel
  obtain ⟨hpredicates, hrepositories⟩ := evaluate_depends_on_fields
  obtain ⟨hsame, htrue⟩ := hpredicates _ e hcompiled
  have hcompile : Compiler.untyped.compile text = .ok (.ofExpr e) := by decide +kernel
  have hput : (empty .concurrent).put "seven" text =
      .ok ⟨.untyped, (RuleStore.empty .concurrent).install ⟨"seven", text, .ofExpr e⟩⟩ :=
    (put_eq_ok_iff _ _ _ _).2 ⟨_, hcompile, rfl⟩
  have hrules : ∀ rule ∈ repository.snapshot, r.AgreeOn rule.predicate.fields s := by
    intro rule hrule
    simp only [repository, editAll, List.foldl_cons, List.foldl_nil, edit, hput] at hrule
    rcases (RuleStore.coherent_empty .concurrent).mem_toList_install hrule with rfl | hold
    · exact hagree
    · exact ((keeps_empty (fun _ => False) .concurrent).forall_mem rule hold).elim
  exact ⟨hcompiled, hagree, (hsame r s hagree).symm.trans herror, htrue r error herror, hrules,
    (hrepositories .concurrent _ .listed r s hrules).2⟩

end Repository

end RecordRules
