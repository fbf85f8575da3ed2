/-!
The lexical layer of rule text, over lists of characters: blanks, symbols, words, field names
and operators.  A reader returns the text that follows what it read, and each law below says
how the two make up the text.
-/

namespace RecordRules

namespace Lexeme

/-- Space, tab, line feed, form feed and carriage return. -/
def isBlank (c : Char) : Bool :=
  c = ' ' || c = '\t' || c = '\n' || c = '\x0c' || c = '\r'

/-- The text without its leading blanks. -/
def skipBlank (text : List Char) : List Char :=
  text.dropWhile isBlank

/-- The text after `symbol`, if the text begins with it. -/
def after? : (symbol text : List Char) → Option (List Char)
  | [], text => some text
  | _ :: _, [] => none
  | c :: symbol, d :: text => if c = d then after? symbol text else none

def isNameStart (c : Char) : Bool :=
  c.isAlpha || c = '_'

def isNameChar (c : Char) : Bool :=
  c.isAlphanum || c = '_' || c = '.'

/-- The text after `word`, if the text begins with it and no name runs on from it. -/
def afterWord? (word text : List Char) : Option (List Char) :=
  (after? word text).filter fun rest => !rest.head?.any isNameChar

/-- The words that are no field names. -/
def keywords : List (List Char) :=
  [['a', 'n', 'd'], ['A', 'N', 'D'], ['o', 'r'], ['O', 'R'],
    ['n', 'o', 't'], ['N', 'O', 'T'], ['t', 'r', 'u', 'e'], ['f', 'a', 'l', 's', 'e']]

/-- A field name as rule text can write it. -/
def isName (name : List Char) : Bool :=
  name.head?.any isNameStart && name.all isNameChar && !keywords.contains name

/-- The longest run of name characters at the start of the text and what follows it, if
the run is a field name. -/
def name? (text : List Char) : Option (List Char × List Char) :=
  if isName (text.takeWhile isNameChar) then
    some (text.takeWhile isNameChar, text.dropWhile isNameChar)
  else
    none

end Lexeme

inductive Operator where
  | and
  | or
  | not
deriving DecidableEq

namespace Operator

/-- The spelling by punctuation, which may touch what follows it. -/
def symbol : Operator → List Char
  | .and => ['&', '&']
  | .or => ['|', '|']
  | .not => ['!']

/-- The spelling by a small-letter word. -/
def word : Operator → List Char
  | .and => ['a', 'n', 'd']
  | .or => ['o', 'r']
  | .not => ['n', 'o', 't']

/-- The spelling by a capital-letter word. -/
def capitals : Operator → List Char
  | .and => ['A', 'N', 'D']
  | .or => ['O', 'R']
  | .not => ['N', 'O', 'T']

/-- The text after the operator in any of its three spellings. -/
def after? (op : Operator) (text : List Char) : Option (List Char) :=
  match Lexeme.after? op.symbol text with
  | some rest => some rest
  | none =>
      match Lexeme.afterWord? op.word text with
      | some rest => some rest
      | none => Lexeme.afterWord? op.capitals text

end Operator

namespace Lexeme

theorem length_skipBlank_le (text : List Char) :
    (skipBlank text).length ≤ text.length :=
  (List.dropWhile_sublist _).length_le

/-- Reading a symbol splits the text at its end. -/
theorem after?_eq_some_iff {symbol text rest : List Char} :
    after? symbol text = some rest ↔ text = symbol ++ rest := by
  induction symbol generalizing text with
  | nil => simp [after?, eq_comm]
  | cons c symbol ih =>
      cases text with
      | nil => simp [after?]
      | cons d text =>
          by_cases h : c = d
          · simp [after?, h, ih]
          · simp [after?, h, Ne.symm h]

theorem length_of_after? {symbol text rest : List Char} (h : after? symbol text = some rest) :
    text.length = symbol.length + rest.length := by
  simp [after?_eq_some_iff.1 h]

/-- Reading a word splits the text at its end, and no name runs on across the split. -/
theorem afterWord?_eq_some_iff {word text rest : List Char} :
    afterWord? word text = some rest ↔
      text = word ++ rest ∧ rest.head?.any isNameChar = false := by
  simp [afterWord?, Option.filter_eq_some_iff, after?_eq_some_iff]

/-- A name that was read is a field name, and together with the rest it is the text. -/
theorem eq_append_of_name? {text name rest : List Char} (h : name? text = some (name, rest)) :
    isName name = true ∧ text = name ++ rest := by
  unfold name? at h
  split at h
  · next hname =>
      simp only [Option.some.injEq, Prod.mk.injEq] at h
      obtain ⟨rfl, rfl⟩ := h
      exact ⟨hname, List.takeWhile_append_dropWhile.symm⟩
  · cases h

theorem isName_nil : isName [] = false := rfl

theorem length_of_name? {text name rest : List Char} (h : name? text = some (name, rest)) :
    rest.length < text.length := by
  obtain ⟨hname, rfl⟩ := eq_append_of_name? h
  cases name with
  | nil => simp [isName_nil] at hname
  | cons c name =>
      simp only [List.cons_append, List.length_cons, List.length_append]
      omega

end Lexeme

namespace Operator

/-- An operator that was read is the text up to the rest, in one of its spellings. -/
theorem eq_append_of_after? {op : Operator} {text rest : List Char}
    (h : op.after? text = some rest) :
    text = op.symbol ++ rest ∨ text = op.word ++ rest ∨ text = op.capitals ++ rest := by
  unfold after? at h
  split at h
  · next hsymbol =>
      cases h
      exact .inl (Lexeme.after?_eq_some_iff.1 hsymbol)
  · split at h
    · next hword =>
        cases h
        exact .inr (.inl (Lexeme.afterWord?_eq_some_iff.1 hword).1)
    · exact .inr (.inr (Lexeme.afterWord?_eq_some_iff.1 h).1)

theorem length_of_after? {op : Operator} {text rest : List Char}
    (h : op.after? text = some rest) : rest.length < text.length := by
  rcases eq_append_of_after? h with rfl | rfl | rfl <;> cases op <;>
    simp [symbol, word, capitals] <;> omega

end Operator

end RecordRules
