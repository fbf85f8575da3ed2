import RecordRules.Json
import RecordRules.Text.Lexeme

/-!
The lexical layer of JSON text: blanks, numbers and strings.  A number has no leading zeros,
and a string no control characters.
-/

namespace RecordRules

namespace Json

/-- Space, tab, line feed and carriage return. -/
def isBlank (c : Char) : Bool :=
  c = ' ' || c = '\t' || c = '\n' || c = '\r'

def skipBlank (text : List Char) : List Char :=
  text.dropWhile isBlank

def readDigits? (text : List Char) : Option (List Char × List Char) :=
  match text.takeWhile Char.isDigit with
  | [] => none
  | digits => some (digits, text.dropWhile Char.isDigit)

/-- Reads a zero, or digits of which the first is not zero. -/
def readWhole? (text : List Char) : Option (List Char × List Char) :=
  match readDigits? text with
  | some (['0'], rest) => some (['0'], rest)
  | some ('0' :: _, _) => none
  | found => found

def readFraction? : List Char → Option (Option (List Char) × List Char)
  | '.' :: text => (readDigits? text).map fun (digits, rest) => (some digits, rest)
  | text => some (none, text)

def readExponent? : List Char → Option (Option (Bool × List Char) × List Char)
  | c :: text =>
      if c = 'e' ∨ c = 'E' then
        match text with
        | '+' :: text => (readDigits? text).map fun (digits, rest) => (some (false, digits), rest)
        | '-' :: text => (readDigits? text).map fun (digits, rest) => (some (true, digits), rest)
        | text => (readDigits? text).map fun (digits, rest) => (some (false, digits), rest)
      else
        some (none, c :: text)
  | [] => some (none, [])

def readUnsigned? (negative : Bool) (text : List Char) : Option (Numeral × List Char) := do
  let (whole, text) ← readWhole? text
  let (fraction, text) ← readFraction? text
  let (exponent, text) ← readExponent? text
  return (⟨negative, whole, fraction, exponent⟩, text)

def readNumeral? : List Char → Option (Numeral × List Char)
  | '-' :: text => readUnsigned? true text
  | text => readUnsigned? false text

def hexDigit? (c : Char) : Option Nat :=
  if '0' ≤ c ∧ c ≤ '9' then some (c.toNat - '0'.toNat)
  else if 'a' ≤ c ∧ c ≤ 'f' then some (c.toNat - 'a'.toNat + 10)
  else if 'A' ≤ c ∧ c ≤ 'F' then some (c.toNat - 'A'.toNat + 10)
  else none

def hexUnit? (a b c d : Char) : Option Nat := do
  return (← hexDigit? a) * 0x1000 + (← hexDigit? b) * 0x100 + (← hexDigit? c) * 0x10
    + (← hexDigit? d)

/-- The character that a backslash and this one stand for. -/
def unescape? : Char → Option Char
  | '"' => some '"'
  | '\\' => some '\\'
  | '/' => some '/'
  | 'b' => some '\x08'
  | 'f' => some '\x0c'
  | 'n' => some '\n'
  | 'r' => some '\r'
  | 't' => some '\t'
  | _ => none

/-- Reads the inside of a string up to its closing quote.  What was read is gathered in
`units`, last unit first. -/
def readUnits? (units : List StringUnit) : List Char → Option (List StringUnit × List Char)
  | [] => none
  | '"' :: text => some (units.reverse, text)
  | '\\' :: 'u' :: a :: b :: c :: d :: text =>
      match hexUnit? a b c d with
      | some u => readUnits? (.unit u :: units) text
      | none => none
  | '\\' :: c :: text =>
      match unescape? c with
      | some c => readUnits? (.char c :: units) text
      | none => none
  | c :: text =>
      if c = '\\' ∨ c.toNat < 0x20 then none else readUnits? (.char c :: units) text

/-- Reads a string between quotes, behind blanks. -/
def readString? (text : List Char) : Option (List StringUnit × List Char) :=
  match skipBlank text with
  | '"' :: text => readUnits? [] text
  | _ => none

theorem length_skipBlank_le (text : List Char) :
    (skipBlank text).length ≤ text.length :=
  (List.dropWhile_sublist _).length_le

theorem length_of_readDigits? {text digits rest : List Char}
    (h : readDigits? text = some (digits, rest)) : rest.length < text.length := by
  have hsplit := congrArg List.length
    (List.takeWhile_append_dropWhile (p := Char.isDigit) (l := text))
  unfold readDigits? at h
  split at h
  · cases h
  · next hne =>
      simp only [Option.some.injEq, Prod.mk.injEq] at h
      obtain ⟨-, rfl⟩ := h
      have := List.length_pos_iff.2 (fun hnil => hne hnil)
      simp only [List.length_append] at hsplit
      omega

theorem length_of_readWhole? {text digits rest : List Char}
    (h : readWhole? text = some (digits, rest)) : rest.length < text.length := by
  unfold readWhole? at h
  split at h
  · next hdigits => cases h; exact length_of_readDigits? hdigits
  · cases h
  · exact length_of_readDigits? h

theorem length_of_readFraction? {text rest : List Char} {digits : Option (List Char)}
    (h : readFraction? text = some (digits, rest)) : rest.length ≤ text.length := by
  unfold readFraction? at h
  split at h
  · obtain ⟨⟨_, _⟩, hdigits, heq⟩ := Option.map_eq_some_iff.1 h
    cases heq
    have := length_of_readDigits? hdigits
    simp only [List.length_cons]
    omega
  · cases h
    exact Nat.le_refl _

theorem length_of_readExponent? {text rest : List Char} {digits : Option (Bool × List Char)}
    (h : readExponent? text = some (digits, rest)) : rest.length ≤ text.length := by
  unfold readExponent? at h
  split at h
  · split at h
    · split at h
      all_goals
        obtain ⟨⟨_, _⟩, hdigits, heq⟩ := Option.map_eq_some_iff.1 h
        cases heq
        have := length_of_readDigits? hdigits
        simp only [List.length_cons] at *
        omega
    · cases h
      exact Nat.le_refl _
  · cases h
    exact Nat.le_refl _

theorem length_of_readUnsigned? {negative : Bool} {text rest : List Char} {n : Numeral}
    (h : readUnsigned? negative text = some (n, rest)) : rest.length < text.length := by
  simp only [readUnsigned?, Option.bind_eq_bind, Option.bind_eq_some_iff, Option.pure_def,
    Option.some.injEq, Prod.mk.injEq, Prod.exists] at h
  obtain ⟨_, _, hwhole, _, _, hfraction, _, _, hexponent, -, rfl⟩ := h
  have := length_of_readWhole? hwhole
  have := length_of_readFraction? hfraction
  have := length_of_readExponent? hexponent
  omega

theorem length_of_readNumeral? {text rest : List Char} {n : Numeral}
    (h : readNumeral? text = some (n, rest)) : rest.length < text.length := by
  unfold readNumeral? at h
  split at h
  · have := length_of_readUnsigned? h
    simp only [List.length_cons]
    omega
  · exact length_of_readUnsigned? h

theorem length_of_readUnits? {units found : List StringUnit} {text rest : List Char}
    (h : readUnits? units text = some (found, rest)) : rest.length < text.length := by
  fun_induction readUnits? units text with
  | case1 => cases h
  | case2 => cases h; simp
  | case3 units a b c d text u hu ih =>
      have := ih h
      simp only [List.length_cons]
      omega
  | case4 => cases h
  | case5 units _ text _ c hc ih =>
      have := ih h
      simp only [List.length_cons]
      omega
  | case6 => cases h
  | case7 => cases h
  | case8 =>
      next ih =>
      have := ih h
      simp only [List.length_cons]
      omega

theorem length_of_readString? {units : List StringUnit} {text rest : List Char}
    (h : readString? text = some (units, rest)) : rest.length < text.length := by
  have hblank := length_skipBlank_le text
  unfold readString? at h
  split at h
  · next htext =>
      have := length_of_readUnits? h
      simp only [htext, List.length_cons] at hblank
      omega
  · cases h

end Json

end RecordRules
