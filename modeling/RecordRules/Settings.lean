import RecordRules.Decimal.Layout
import RecordRules.Expr.Render

/-!
Settings for random rules and random records.
-/

namespace RecordRules

/-- Whether a boolean field stands bare or is compared with a literal. -/
inductive FlagStyle where
  | bare
  | explicit
deriving DecidableEq

/-- Why settings cannot be used. -/
inductive SettingsFault where
  | probability (name : String) (value : Float)
  | emptyRange (first last : Int64)

def SettingsFault.message : SettingsFault → String
  | .probability name value =>
      s!"{name} must be within [0, 1], got {DecimalLayout.plain.text value}"
  | .emptyRange first last => s!"out-of-domain range {first.toInt}..={last.toInt} is empty"

/-- What is wrong with a probability of this name. -/
def probabilityFault? (name : String) (value : Float) : Option SettingsFault :=
  if 0.0 ≤ value ∧ value ≤ 1.0 then none else some (.probability name value)

structure RuleSettings where
  /-- The most leaves that a rule may have. -/
  mostLeaves : Nat
  /-- How likely a leaf is negated. -/
  negationChance : Float
  /-- How likely two parts are joined by `or`. -/
  disjunctionChance : Float
  flagStyle : FlagStyle
  dialect : Dialect

namespace RuleSettings

def standard : RuleSettings where
  mostLeaves := 5
  negationChance := 0.3
  disjunctionChance := 0.5
  flagStyle := .bare
  dialect := .keyword

def fault? (c : RuleSettings) : Option SettingsFault :=
  (probabilityFault? "not_probability" c.negationChance).or
    (probabilityFault? "or_probability" c.disjunctionChance)

theorem fault?_standard : standard.fault? = none := by decide +kernel

/-- Whether two settings are equal, their probabilities as numbers. -/
def sameAs (c d : RuleSettings) : Bool :=
  c.mostLeaves == d.mostLeaves && c.negationChance == d.negationChance
    && c.disjunctionChance == d.disjunctionChance && c.flagStyle == d.flagStyle
    && c.dialect == d.dialect

end RuleSettings

/-- All integers from the first to the last. -/
structure Band where
  first : Int64
  last : Int64
deriving DecidableEq

namespace Band

def width (b : Band) : Nat :=
  (b.last.toInt - b.first.toInt + 1).toNat

end Band

structure RecordSettings where
  /-- How likely an integer is taken from the domain of its field. -/
  domainChance : Float
  /-- The integers from which all others are taken. -/
  band : Band

namespace RecordSettings

def standard : RecordSettings where
  domainChance := 0.8
  band := ⟨10000, 99999⟩

def fault? (c : RecordSettings) : Option SettingsFault :=
  (probabilityFault? "domain_probability" c.domainChance).or
    (if c.band.width = 0 then
      some (.emptyRange c.band.first c.band.last)
    else
      none)

theorem fault?_standard : standard.fault? = none := by decide +kernel

/-- Whether two settings are equal, their probabilities as numbers. -/
def sameAs (c d : RecordSettings) : Bool :=
  c.domainChance == d.domainChance && c.band == d.band

end RecordSettings

end RecordRules
