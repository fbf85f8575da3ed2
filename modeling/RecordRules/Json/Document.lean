import RecordRules.Settings
import RecordRules.Json.Number
import RecordRules.Json.Read
import RecordRules.Json.Shape
import RecordRules.Json.Write
import RecordRules.Schema

/-!
Values, fields and settings as JSON documents.  A value is a boolean, an integer or a string
without any mark of its kind; settings that are not given have their standard values.
-/

namespace RecordRules

namespace Value

def toJson : Value → Json
  | .bool b => .bool b
  | .int i => .ofInt i.toInt
  | .str s => .ofString s

def ofJson? : Json → Option Value
  | .bool b => some (.bool b)
  | .string units => (StringUnit.decode? units).map .str
  | j => j.int64?.map .int

end Value

namespace Kind

def tag : Kind → String
  | .boolean => "Boolean"
  | .string => "String"
  | .integer => "Integer"

def ofTag? (tag : String) : Option Kind :=
  [Kind.boolean, .string, .integer].find? (·.tag = tag)

def toJson (k : Kind) : Json :=
  .ofString k.tag

def ofJson? (j : Json) : Option Kind :=
  j.variant?.bind ofTag?

end Kind

namespace FieldDecl

def toJson (f : FieldDecl) : Json :=
  .ofMembers [("name", .ofString f.name), ("kind", f.kind.toJson),
    ("domain", .array (f.domain.map Value.toJson))]

def domainOfJson? : Json → Option (List Value)
  | .array items => items.mapM Value.ofJson?
  | _ => none

/-- Reads a field, whether or not a schema could have it. -/
def ofJson? (j : Json) : Option FieldDecl :=
  match j.parts? false ["name", "kind", "domain"] with
  | some [some name, some kind, some domain] => do
      return ⟨← name.string?, ← Kind.ofJson? kind, ← domainOfJson? domain⟩
  | _ => none

end FieldDecl

namespace Dialect

def tag : Dialect → String
  | .keyword => "Keyword"
  | .symbolic => "Symbolic"

def ofTag? (tag : String) : Option Dialect :=
  [Dialect.keyword, .symbolic].find? (·.tag = tag)

def toJson (d : Dialect) : Json :=
  .ofString d.tag

def ofJson? (j : Json) : Option Dialect :=
  j.variant?.bind ofTag?

end Dialect

namespace FlagStyle

def tag : FlagStyle → String
  | .bare => "Bare"
  | .explicit => "Explicit"

def ofTag? (tag : String) : Option FlagStyle :=
  [FlagStyle.bare, .explicit].find? (·.tag = tag)

def toJson (s : FlagStyle) : Json :=
  .ofString s.tag

def ofJson? (j : Json) : Option FlagStyle :=
  j.variant?.bind ofTag?

end FlagStyle

/-- Numbers in documents: with a power of ten if they are large or small, and never without a
point or a power of ten. -/
def DecimalLayout.document : DecimalLayout where
  tie := .even
  writtenOut := some (-5, 15)
  pointZero := true

/-- A double as a document; what is no finite number is null. -/
def Json.ofFloat (x : Float) : Json :=
  if x.isFinite then .number (DecimalLayout.document.numeral x) else .null

namespace RuleSettings

def toJson (c : RuleSettings) : Json :=
  .ofMembers [("max_factors", .ofInt c.mostLeaves),
    ("not_probability", .ofFloat c.negationChance),
    ("or_probability", .ofFloat c.disjunctionChance),
    ("bool_style", c.flagStyle.toJson),
    ("dialect", c.dialect.toJson)]

def ofJson? (j : Json) : Option RuleSettings :=
  let names := ["max_factors", "not_probability", "or_probability", "bool_style", "dialect"]
  match j.parts? false names with
  | some [mostLeaves, negationChance, disjunctionChance, flagStyle, dialect] => do
      return {
        mostLeaves := ← Json.orElse Json.natural? standard.mostLeaves mostLeaves
        negationChance := ← Json.orElse Json.float? standard.negationChance negationChance
        disjunctionChance :=
          ← Json.orElse Json.float? standard.disjunctionChance disjunctionChance
        flagStyle := ← Json.orElse FlagStyle.ofJson? standard.flagStyle flagStyle
        dialect := ← Json.orElse Dialect.ofJson? standard.dialect dialect }
  | _ => none

end RuleSettings

namespace Band

def toJson (b : Band) : Json :=
  .ofMembers [("start", .ofInt b.first.toInt), ("end", .ofInt b.last.toInt)]

def ofJson? (j : Json) : Option Band :=
  match j.parts? true ["start", "end"] with
  | some [some first, some last] => do
      return ⟨← first.int64?, ← last.int64?⟩
  | _ => none

end Band

namespace RecordSettings

def toJson (c : RecordSettings) : Json :=
  .ofMembers [("domain_probability", .ofFloat c.domainChance),
    ("out_of_domain", c.band.toJson)]

def ofJson? (j : Json) : Option RecordSettings :=
  match j.parts? false ["domain_probability", "out_of_domain"] with
  | some [domainChance, band] => do
      return {
        domainChance :=
          ← Json.orElse Json.float? standard.domainChance domainChance
        band := ← Json.orElse Band.ofJson? standard.band band }
  | _ => none

end RecordSettings

end RecordRules
