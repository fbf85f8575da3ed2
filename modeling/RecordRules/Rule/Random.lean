import RecordRules.Settings
import RecordRules.Random.Sample
import RecordRules.Schema

/-!
Random rules over a schema.  A rule is a random tree over different fields of the schema, each
of which is compared with a value of its domain.
-/

namespace RecordRules

/-- Random rules over a schema, with settings that can be used. -/
structure RandomRules where
  schema : Schema
  settings : RuleSettings
  faultless : settings.fault? = none

namespace RandomRules

def make (schema : Schema) (settings : RuleSettings) : Except SettingsFault RandomRules :=
  match h : settings.fault? with
  | some fault => .error fault
  | none => .ok ⟨schema, settings, h⟩

/-- The rules of the standard settings, but for the most leaves that a rule may have. -/
def standard (schema : Schema) (mostLeaves : Nat) : RandomRules :=
  ⟨schema, { RuleSettings.standard with mostLeaves := mostLeaves },
    RuleSettings.fault?_standard⟩

/-- A comparison of a field with a value that it may have. -/
def leaf (s : RandomRules) (field : FieldDecl) : Draw Expr :=
  match field.kind, s.settings.flagStyle with
  | .boolean, .bare => return .flag field.name
  | .boolean, .explicit => return .eq field.name (.bool (← Draw.coin))
  | _, _ => do
      match ← Draw.choose? field.domain with
      | some value => return .eq field.name value
      | none => return .flag field.name

def factor (s : RandomRules) (field : FieldDecl) : Draw Expr := do
  let e ← s.leaf field
  if ← Draw.chance s.settings.negationChance then
    return .not e
  else
    return e

/-- A random tree with the fields `first` and `rest` at its leaves, in this order. -/
def arrange (s : RandomRules) (first : FieldDecl) (rest : List FieldDecl) : Draw Expr :=
  if h : 0 < rest.length then do
    let cut ← Draw.index rest.length h
    let left ← s.arrange first (rest.take cut)
    let right ← s.arrange rest[cut] (rest.drop (cut + 1))
    if ← Draw.chance s.settings.disjunctionChance then
      return .or left right
    else
      return .and left right
  else
    s.factor first
termination_by rest.length
decreasing_by
  · exact Nat.lt_of_le_of_lt (List.length_take_le cut rest) cut.isLt
  · rw [List.length_drop]
    omega

/-- The most leaves of a rule: as many as the settings allow and the schema has, and one at
least. -/
def leafLimit (s : RandomRules) : Nat :=
  max 1 (min s.settings.mostLeaves s.schema.size)

theorem leafLimit_pos (s : RandomRules) : 0 < s.leafLimit :=
  Nat.le_max_left 1 _

theorem leafLimit_le (s : RandomRules) : s.leafLimit ≤ s.schema.size :=
  Nat.max_le.2 ⟨s.schema.size_pos, Nat.min_le_right _ _⟩

/-- A random rule: a random number of different fields in random order, randomly arranged. -/
def expr (s : RandomRules) : Draw Expr := do
  let others ← Draw.index s.leafLimit s.leafLimit_pos
  let picked ← Draw.sample s.schema.size (others + 1)
    (Nat.le_trans others.isLt s.leafLimit_le)
  let field (i : Fin s.schema.size) : FieldDecl := s.schema.fields.get i
  s.arrange (field picked.head) (picked.tail.toList.map field)

def text (s : RandomRules) : Draw String := do
  let e ← s.expr
  return e.render s.settings.dialect

end RandomRules

end RecordRules
