import RecordRules.Repository.Survey

/-!
What a survey counts.  The hits are the rules that hold, in the order of the rules, and every rule
is counted once, whether it fails or not.
-/

namespace RecordRules

/-- Whether the rule has no truth value on a record. -/
def Rule.failsOn (rule : Rule) (record : Record) : Bool :=
  match rule.predicate.evaluate record with
  | .ok _ => false
  | .error _ => true

namespace Survey

theorem foldl_visit (record : Record) (rules : List Rule) (s : Survey) :
    rules.foldl (visit record) s =
      ⟨s.hits ++ (rules.filter (·.holdsOn record)).map (·.id), s.evaluated + rules.length,
        s.failed + rules.countP (·.failsOn record)⟩ := by
  induction rules generalizing s with
  | nil => simp
  | cons rule rules ih =>
      rw [List.foldl_cons, ih, visit, List.filter_cons, List.countP_cons, Rule.holdsOn,
        Rule.failsOn]
      rcases rule.predicate.evaluate record with _ | _ | _
      · simp
        omega
      · simp
        omega
      · simp
        omega

theorem ofRules_eq (record : Record) (rules : List Rule) :
    ofRules record rules =
      ⟨(rules.filter (·.holdsOn record)).map (·.id), rules.length,
        rules.countP (·.failsOn record)⟩ := by
  rw [ofRules, foldl_visit]
  simp only [empty, List.nil_append, Nat.zero_add]

end Survey

end RecordRules
