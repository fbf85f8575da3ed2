import RecordRules.Proofs.Repository.Passes

/-!
What more fields can change.  A result does not depend on fields that were not there when it was
found: on a larger record a predicate has the same truth value, or the same mismatch, and only the
lack of a field can be mended.  So no hit is lost, and no more rules fail.
-/

namespace RecordRules

namespace Record

/-- The record has every field of the other one, with the same value. -/
def Extends (larger r : Record) : Prop :=
  ∀ field value, r.get? field = some value → larger.get? field = some value

/-- A result that the fields of this record leave as it is: a field whose lack is the error is not
there either. -/
def Settles (larger : Record) : Except EvalError Bool → Prop
  | .ok _ => True
  | .error (.typeMismatch _ _ _) => True
  | .error (.missingField field) => larger.get? field = none

/-- A second result is the first, where the fields of this record leave that as it is. -/
def Carries (larger : Record) (first second : Except EvalError Bool) : Prop :=
  larger.Settles first → second = first

theorem extends_insert {r : Record} {field : String} (h : r.get? field = none) (value : Value) :
    (r.insert field value).Extends r := by
  intro other held hget
  rw [get?_insert]
  split
  · next hother =>
      rw [hother, h] at hget
      cases hget
  · exact hget

namespace Carries

variable {larger : Record} {first second first' second' : Except EvalError Bool}

/-- A connective is settled by its first operand, or by both. -/
theorem connect (settling : Bool) (h : larger.Carries first second)
    (h' : larger.Carries first' second') :
    larger.Carries (RecordRules.connect settling first first')
      (RecordRules.connect settling second second') := by
  rcases first with error | b
  · intro hsettles
    rw [h hsettles]
    rfl
  · intro hsettles
    rw [h trivial]
    by_cases hb : b = settling
    · simp only [RecordRules.connect, if_pos hb]
    · simp only [RecordRules.connect, if_neg hb] at hsettles ⊢
      exact h' hsettles

theorem negate (h : larger.Carries first second) :
    larger.Carries (first.map (!·)) (second.map (!·)) := by
  rcases first with error | b
  · intro hsettles
    rw [h hsettles]
  · intro hsettles
    rw [h trivial]

end Carries

variable {larger r : Record} (h : larger.Extends r)

include h

/-- What is found of a field is the same in both records, unless only the larger one has it. -/
theorem Extends.find_eq_or (field : String) :
    larger.find field = r.find field ∨
      r.find field = .error (.missingField field) ∧ larger.get? field ≠ none := by
  cases hget : r.get? field with
  | some value =>
      left
      simp only [find, hget, h field value hget]
  | none =>
      by_cases hlarger : larger.get? field = none
      · left
        simp only [find, hget, hlarger]
      · right
        exact ⟨by simp only [find, hget], hlarger⟩

/-- A result that is made of what is found of a field, and fails where the field does, carries
over. -/
theorem Extends.carries_of_find (field : String) {first second : Except EvalError Bool}
    (hsame : larger.find field = r.find field → second = first)
    (hmissing : r.find field = .error (.missingField field) →
      first = .error (.missingField field)) : larger.Carries first second := by
  intro hsettles
  rcases h.find_eq_or field with hfind | ⟨hfind, hmended⟩
  · exact hsame hfind
  · rw [hmissing hfind] at hsettles
    exact absurd hsettles hmended

theorem Extends.carries_holdsValue (field : String) (value : Value) :
    larger.Carries (r.holdsValue field value) (larger.holdsValue field value) := by
  apply h.carries_of_find field
  all_goals
    intro hfind
    simp only [holdsValue, hfind]

theorem Extends.carries_holdsFlag (field : String) :
    larger.Carries (r.holdsFlag field) (larger.holdsFlag field) := by
  apply h.carries_of_find field
  all_goals
    intro hfind
    simp only [holdsFlag, hfind]

end Record

namespace NormalForm

variable {larger r : Record}

theorem carries_evalParts (settling : Bool) {parts : List NormalForm}
    (h : ∀ p ∈ parts, larger.Carries (eval r p) (eval larger p)) :
    larger.Carries (evalParts r settling parts) (evalParts larger settling parts) := by
  induction parts with
  | nil =>
      intro _
      rw [evalParts_nil, evalParts_nil]
  | cons part parts ih =>
      rw [List.forall_mem_cons] at h
      rw [evalParts_cons, evalParts_cons]
      exact h.1.connect settling (ih h.2)

/-- What is settled on a record is the same on a larger one, part by part. -/
theorem carries_eval (h : larger.Extends r) (p : NormalForm) :
    larger.Carries (eval r p) (eval larger p) := by
  induction p using node_induction with
  | eq field value =>
      simp only [eval]
      exact h.carries_holdsValue field value
  | flag field =>
      simp only [eval]
      exact h.carries_holdsFlag field
  | node settling parts ih =>
      rw [eval_node, eval_node]
      exact carries_evalParts settling ih
  | not operand ih =>
      simp only [eval]
      exact ih.negate

end NormalForm

namespace Repository

section Larger

variable {larger r : Record} (h : larger.Extends r)

include h

theorem carries_evaluate (p : Predicate) :
    larger.Carries (p.evaluate r) (p.evaluate larger) :=
  NormalForm.carries_eval h p.tree

theorem holdsOn_of_extends {rule : Rule} (hrule : rule.holdsOn r = true) :
    rule.holdsOn larger = true := by
  rw [rule.holdsOn_iff] at hrule ⊢
  have hcarries := carries_evaluate h rule.predicate
  rw [hrule] at hcarries
  exact hcarries trivial

/-- A rule that fails on the larger record has no truth value on the smaller one either. -/
theorem failsOn_of_extends {rule : Rule} (hrule : rule.failsOn larger = true) :
    rule.failsOn r = true := by
  rw [rule.failsOn_iff] at hrule ⊢
  obtain ⟨error, herror⟩ := hrule
  have hcarries := carries_evaluate h rule.predicate
  cases hresult : rule.predicate.evaluate r with
  | error error' => exact ⟨error', rfl⟩
  | ok b =>
      rw [hresult, herror] at hcarries
      cases hcarries trivial

end Larger

/-- On a larger record every predicate has the truth value that it had, or the mismatch, or still
misses a field that is still not there.  A repository has all hits that it had, in their order if
its rules are visited in the same one, and no more rules fail. -/
theorem evaluate_of_extends {larger r : Record} (h : larger.Extends r) :
    (∀ p : Predicate,
        (∀ b, p.evaluate r = .ok b → p.evaluate larger = .ok b) ∧
          (∀ field expected found, p.evaluate r = .error (.typeMismatch field expected found) →
            p.evaluate larger = .error (.typeMismatch field expected found)) ∧
          ∀ field, p.evaluate r = .error (.missingField field) → larger.get? field = none →
            p.evaluate larger = .error (.missingField field)) ∧
      ∀ (repository : Repository) (o o' : VisitOrder),
        (repository.hitsIn o r).Sublist (repository.hitsIn o larger) ∧
          repository.hitsIn o r ⊆ repository.hitsIn o' larger ∧
            (repository.surveyIn o' larger).failed ≤ (repository.surveyIn o r).failed := by
  constructor
  · intro p
    have hcarries := carries_evaluate h p
    refine ⟨?_, ?_, ?_⟩
    · intro b hresult
      rw [hresult] at hcarries
      exact hcarries trivial
    · intro field expected found hresult
      rw [hresult] at hcarries
      exact hcarries trivial
    · intro field hresult hget
      rw [hresult] at hcarries
      exact hcarries hget
  · intro repository o o'
    have hsublist : (repository.hitsIn o r).Sublist (repository.hitsIn o larger) := by
      rw [hitsIn_eq, hitsIn_eq]
      apply List.Sublist.map
      apply List.monotone_filter_right
      intro rule hrule
      exact holdsOn_of_extends h hrule
    refine ⟨hsublist, ?_, ?_⟩
    · intro id hid
      exact (repository.perm_hitsIn o o' larger).subset (hsublist.subset hid)
    · rw [repository.failed_surveyIn o' o, (passesAgree o repository larger).failed_eq,
        (passesAgree o repository r).failed_eq]
      apply List.countP_mono_left
      intro rule _ hrule
      exact failsOn_of_extends h hrule

/-- A flag settles a disjunction before the field that comes later is read; a mismatch stays, and a
field that did not come is still missing. -/
theorem evaluate_of_extends_short_circuit :
    let settled := Predicate.ofExpr (.or (.flag "is_vip") (.flag "blacklisted"))
    let mistyped := Predicate.ofExpr (.not (.eq "is_vip" (.int 1)))
    let missing := Predicate.ofExpr (.and (.flag "is_vip") (.flag "env"))
    let r := Record.ofList [("is_vip", .bool true)]
    let larger := r.insert "blacklisted" (.int 1)
    let repository := (empty .concurrent).edit (.put "any" "is_vip or blacklisted")
    larger.Extends r ∧ settled.evaluate larger = .ok true ∧
      mistyped.evaluate larger = .error (.typeMismatch "is_vip" .integer .boolean) ∧
        missing.evaluate larger = .error (.missingField "env") ∧
          repository.hitsIn .listed r ⊆ repository.hitsIn .listed larger := by
  intro settled mistyped missing r larger repository
  have hextends : larger.Extends r := Record.extends_insert (by decide +kernel) _
  obtain ⟨hpredicates, hrepositories⟩ := evaluate_of_extends hextends
  refine ⟨hextends, ?_, ?_, ?_, (hrepositories repository .listed .listed).2.1⟩
  · exact (hpredicates settled).1 true (by decide +kernel)
  · exact (hpredicates mistyped).2.1 _ _ _ (by decide +kernel)
  · exact (hpredicates missing).2.2 "env" (by decide +kernel) (by decide +kernel)

end Repository

end RecordRules
