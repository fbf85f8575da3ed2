import RecordRules.Repository.Table

/-!
Stores of rules.  A phased store lists its rules in the order in which their identifiers were
first stored; a concurrent one lists each rule once and promises no order.
-/

namespace RecordRules

/-- What a store promises about its order. -/
inductive Mode where
  | concurrent
  | phased
deriving DecidableEq

def Mode.label : Mode → String
  | .concurrent => "Concurrent"
  | .phased => "Phased"

/-- Rules under their identifiers. -/
inductive RuleStore where
  | concurrent (rules : Std.HashMap String Rule)
  | phased (table : RuleTable)

namespace RuleStore

def empty : Mode → RuleStore
  | .concurrent => .concurrent ∅
  | .phased => .phased .empty

def mode : RuleStore → Mode
  | .concurrent _ => .concurrent
  | .phased _ => .phased

/-- The rules in the order in which they are visited. -/
def toList : RuleStore → List Rule
  | .concurrent rules => rules.toList.map Prod.snd
  | .phased table => table.toList

def size : RuleStore → Nat
  | .concurrent rules => rules.size
  | .phased table => table.size

def contains (s : RuleStore) (id : String) : Bool :=
  match s with
  | .concurrent rules => rules.contains id
  | .phased table => table.contains id

def get? (s : RuleStore) (id : String) : Option Rule :=
  match s with
  | .concurrent rules => rules[id]?
  | .phased table => table.get? id

/-- Stores a rule under its identifier, in place of an earlier one. -/
def install (s : RuleStore) (rule : Rule) : RuleStore :=
  match s with
  | .concurrent rules => .concurrent (rules.insert rule.id rule)
  | .phased table => .phased (table.install rule)

def erase (s : RuleStore) (id : String) : RuleStore :=
  match s with
  | .concurrent rules => .concurrent (rules.erase id)
  | .phased table => .phased (table.erase id)

end RuleStore

end RecordRules
