import RecordRules.Repository
import RecordRules.Rule.Random

/-!
Repositories filled with random rules, under numbered identifiers.
-/

namespace RecordRules

namespace Repository

/-- The identifier of the random rule that follows `i` others. -/
def randomId (i : Nat) : String :=
  s!"auto-{i + 1}"

/-- Stores `count` random rules, one after the other, numbered from behind `done`.  A rule
that is rejected ends the run; those before it stay. -/
def putRandomFrom (rules : RandomRules) (done : Nat) :
    (count : Nat) → Repository → Draw (Except Rejection (List String) × Repository)
  | 0, r => return (.ok [], r)
  | count + 1, r => do
      let text ← rules.text
      match r.put (randomId done) text with
      | .error rejection => return (.error rejection, r)
      | .ok stored => do
          let (ids, last) ← putRandomFrom rules (done + 1) count stored
          return (ids.map (randomId done :: ·), last)

/-- Stores `count` random rules, and lists their identifiers. -/
def putRandom (r : Repository) (rules : RandomRules) (count : Nat) :
    Draw (Except Rejection (List String) × Repository) :=
  putRandomFrom rules 0 count r

end Repository

end RecordRules
