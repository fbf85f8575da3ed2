import RecordRules.Settings
import RecordRules.Random.Draw
import RecordRules.Record
import RecordRules.Schema

/-!
Random records of a schema.  Strings come from the domains of their fields, integers from the
domain or from a band of other integers.
-/

namespace RecordRules

namespace Band

/-- An integer of the band.  If the band is all of them, a word stands for itself. -/
def draw (b : Band) : Draw Int64 :=
  if b.width = Nat.pow 2 64 then do
    let word ← Draw.word
    return word.toInt64
  else if h : 0 < b.width then do
    let i ← Draw.below 64 b.width h
    return Int64.ofInt (b.first.toInt + i)
  else
    return b.first

/-- An integer of the band, drawn again while it is one of these values, so many times at
most.  The last draw counts whatever it is. -/
def drawOutside (b : Band) (values : List Value) : (again : Nat) → Draw Int64
  | 0 => b.draw
  | again + 1 => do
      let i ← b.draw
      if values.contains (.int i) then
        b.drawOutside values again
      else
        return i

end Band

/-- Random records of a schema, with settings that can be used. -/
structure RandomRecords where
  schema : Schema
  settings : RecordSettings
  faultless : settings.fault? = none

namespace RandomRecords

def make (schema : Schema) (settings : RecordSettings) : Except SettingsFault RandomRecords :=
  match h : settings.fault? with
  | some fault => .error fault
  | none => .ok ⟨schema, settings, h⟩

def standard (schema : Schema) : RandomRecords :=
  ⟨schema, .standard, RecordSettings.fault?_standard⟩

/-- How many draws from the band may follow the first. -/
def redraws : Nat := 7

/-- A value of a field.  There is none if the domain that it should come from is empty. -/
def value? (g : RandomRecords) (field : FieldDecl) : Draw (Option Value) :=
  match field.kind with
  | .boolean => return some (.bool (← Draw.coin))
  | .string => Draw.choose? field.domain
  | .integer => do
      if ← Draw.chance g.settings.domainChance then
        Draw.choose? field.domain
      else
        return some (.int (← g.settings.band.drawOutside field.domain redraws))

/-- Adds values of these fields to a record. -/
def fill (g : RandomRecords) : List FieldDecl → Record → Draw Record
  | [], r => return r
  | field :: fields, r => do
      match ← g.value? field with
      | some value => g.fill fields (r.insert field.name value)
      | none => g.fill fields r

/-- A random record with a value for each field of the schema. -/
def record (g : RandomRecords) : Draw Record :=
  g.fill g.schema.fields .empty

/-- Further random records behind those in `made`, last first. -/
def recordsBehind (g : RandomRecords) (made : List Record) : (count : Nat) → Draw (List Record)
  | 0 => return made.reverse
  | count + 1 => do
      let r ← g.record
      g.recordsBehind (r :: made) count

def records (g : RandomRecords) (count : Nat) : Draw (List Record) :=
  g.recordsBehind [] count

end RandomRecords

end RecordRules
