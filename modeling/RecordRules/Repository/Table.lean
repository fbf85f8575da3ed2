import Std.Data.HashMap
import RecordRules.Rule

/-!
Rules in the order in which their identifiers were first stored, with an index from
identifiers to positions.
-/

namespace RecordRules

structure RuleTable where
  index : Std.HashMap String Nat
  rules : Array Rule

namespace RuleTable

def empty : RuleTable := ⟨∅, #[]⟩

def toList (t : RuleTable) : List Rule :=
  t.rules.toList

def size (t : RuleTable) : Nat :=
  t.rules.size

def contains (t : RuleTable) (id : String) : Bool :=
  t.index.contains id

def get? (t : RuleTable) (id : String) : Option Rule :=
  match t.index[id]? with
  | some position => t.rules[position]?
  | none => none

/-- Stores a rule: at the position of its identifier if there is one, else at the end. -/
def install (t : RuleTable) (rule : Rule) : RuleTable :=
  match t.index[rule.id]? with
  | some position => ⟨t.index, t.rules.setIfInBounds position rule⟩
  | none => ⟨t.index.insert rule.id t.rules.size, t.rules.push rule⟩

/-- Removes the rule of an identifier.  The rules behind it move up by one position. -/
def erase (t : RuleTable) (id : String) : RuleTable :=
  match t.index[id]? with
  | some position =>
      ⟨(t.index.erase id).map fun _ p => if position < p then p - 1 else p,
        t.rules.eraseIdxIfInBounds position⟩
  | none => t

end RuleTable

end RecordRules
