import RecordRules.Expr
import RecordRules.Text.Lexeme

/-!
The grammar of rule text, as relations between a text, what a phrase at its start stands for,
and the text behind the phrase.  A word or a name is followed by nothing that would continue
it; blanks are runs of any length.  The last relation says which texts are rules of which trees.
-/

namespace RecordRules

namespace Grammar

def blanks : List Char := [' ', '\t', '\n', '\x0c', '\r']

def IsLetter (c : Char) : Prop :=
  ('a' ≤ c ∧ c ≤ 'z') ∨ ('A' ≤ c ∧ c ≤ 'Z')

def IsDigit (c : Char) : Prop :=
  '0' ≤ c ∧ c ≤ '9'

/-- A character that continues a name or a word. -/
def IsNameChar (c : Char) : Prop :=
  IsLetter c ∨ IsDigit c ∨ c = '_' ∨ c = '.'

instance : DecidablePred IsLetter := fun c =>
  inferInstanceAs (Decidable (('a' ≤ c ∧ c ≤ 'z') ∨ ('A' ≤ c ∧ c ≤ 'Z')))

instance : DecidablePred IsDigit := fun c =>
  inferInstanceAs (Decidable ('0' ≤ c ∧ c ≤ '9'))

instance : DecidablePred IsNameChar := fun c =>
  inferInstanceAs (Decidable (IsLetter c ∨ IsDigit c ∨ c = '_' ∨ c = '.'))

/-- The text is a run of blanks, perhaps an empty one, in front of `rest`. -/
def Blanks (text rest : List Char) : Prop :=
  ∃ run, (∀ c ∈ run, c ∈ blanks) ∧ text = run ++ rest

/-- What stands before `rest` ends there: no name or word runs on. -/
def Stops (rest : List Char) : Prop :=
  ∀ c ∈ rest.head?, ¬ IsNameChar c

/-- A word, and nothing that continues it. -/
def Word (word : String) (text rest : List Char) : Prop :=
  text = word.toList ++ rest ∧ Stops rest

def punctuation : Operator → String
  | .and => "&&"
  | .or => "||"
  | .not => "!"

def words : Operator → List String
  | .and => ["and", "AND"]
  | .or => ["or", "OR"]
  | .not => ["not", "NOT"]

/-- An operator in any of its three spellings. -/
inductive Sign (op : Operator) : List Char → List Char → Prop
  | punctuation (rest : List Char) : Sign op ((punctuation op).toList ++ rest) rest
  | word {w : String} {text rest : List Char} :
      w ∈ words op → Word w text rest → Sign op text rest

/-- The words that are no field names. -/
def reserved : List String :=
  ["and", "AND", "or", "OR", "not", "NOT", "true", "false"]

/-- A letter or an underscore, then letters, digits, underscores and dots. -/
def Identifier (name : String) : Prop :=
  (∃ c tail, name.toList = c :: tail ∧ (IsLetter c ∨ c = '_') ∧ ∀ d ∈ tail, IsNameChar d) ∧
    name ∉ reserved

/-- A field name as long as the text lets it be. -/
def Name (text : List Char) (name : String) (rest : List Char) : Prop :=
  Identifier name ∧ text = name.toList ++ rest ∧ Stops rest

/-- What a backslash and a character stand for.  Where they are no escape they stand for
themselves. -/
def escaped : Char → List Char
  | '"' => ['"']
  | '\\' => ['\\']
  | 'n' => ['\n']
  | 't' => ['\t']
  | c => ['\\', c]

/-- The inside of a string, which has no quote that is not escaped, and its content. -/
inductive Body : List Char → List Char → Prop
  | empty : Body [] []
  | plain {c : Char} {body content : List Char} :
      c ≠ '"' → c ≠ '\\' → Body body content → Body (c :: body) (c :: content)
  | escape {c : Char} {body content : List Char} :
      Body body content → Body ('\\' :: c :: body) (escaped c ++ content)

/-- A positive number in decimal, without leading zeros. -/
def Positive (digits : List Char) (n : Nat) : Prop :=
  (∃ c ∈ digits.head?, c ≠ '0') ∧ (∀ c ∈ digits, IsDigit c) ∧ n = Nat.ofDigitChars 10 digits 0

/-- Zero, or a positive number that may follow a sign. -/
inductive Integer : List Char → Int → Prop
  | zero : Integer ['0'] 0
  | unsigned {digits : List Char} {n : Nat} : Positive digits n → Integer digits n
  | plus {digits : List Char} {n : Nat} : Positive digits n → Integer ('+' :: digits) n
  | minus {digits : List Char} {n : Nat} : Positive digits n → Integer ('-' :: digits) (-n)

/-- A string up to its first quote that is not escaped, a truth value, or an integer that has
64 bits. -/
inductive Literal : List Char → Value → List Char → Prop
  | string {body content rest : List Char} :
      Body body content →
        Literal ('"' :: (body ++ '"' :: rest)) (.str (String.ofList content)) rest
  | true {text rest : List Char} : Word "true" text rest → Literal text (.bool true) rest
  | false {text rest : List Char} : Word "false" text rest → Literal text (.bool false) rest
  | integer {digits rest : List Char} (i : Int64) :
      Integer digits i.toInt → Literal (digits ++ rest) (.int i) rest

/-- The tree of a run of operands: halves of equal length, or a left one that is longer by one
operand, each of them balanced. -/
inductive Balanced (join : Expr → Expr → Expr) : List Expr → Expr → Prop
  | one (e : Expr) : Balanced join [e] e
  | halves {left right : List Expr} {a b : Expr} :
      left.length = right.length ∨ left.length = right.length + 1 →
        Balanced join left a → Balanced join right b → Balanced join (left ++ right) (join a b)

/-- The kinds of phrases that stand for an expression. -/
inductive Symbol where
  | disjunction
  | conjunction
  | unary
  | primary
deriving DecidableEq

mutual

/-- A phrase at the start of a text, its tree, and the text behind it.  No path from the root
of the derivation to a leaf crosses more parentheses and negations than the bound says. -/
inductive Derives : Symbol → Nat → List Char → Expr → List Char → Prop
  | disjunction {n : Nat} {text mid rest : List Char} {e tree : Expr} {es : List Expr} :
      Derives .conjunction n text e mid → Repeats .or .conjunction n mid es rest →
        Balanced .or (e :: es) tree → Derives .disjunction n text tree rest
  | conjunction {n : Nat} {text mid rest : List Char} {e tree : Expr} {es : List Expr} :
      Derives .unary n text e mid → Repeats .and .unary n mid es rest →
        Balanced .and (e :: es) tree → Derives .conjunction n text tree rest
  | negation {n : Nat} {text sign behind rest : List Char} {e : Expr} :
      Blanks text sign → Sign .not sign behind → Derives .unary n behind e rest →
        Derives .unary (n + 1) text (.not e) rest
  | operand {n : Nat} {text behind rest : List Char} {e : Expr} :
      Blanks text behind → Derives .primary n behind e rest → Derives .unary n text e rest
  | group {n : Nat} {text mid rest : List Char} {e : Expr} :
      Derives .disjunction n text e mid → Blanks mid (')' :: rest) →
        Derives .primary (n + 1) ('(' :: text) e rest
  | comparison {n : Nat} {text mid behind literal rest : List Char} {field : String}
      {value : Value} :
      Name text field mid → Blanks mid ('=' :: '=' :: behind) → Blanks behind literal →
        Literal literal value rest → Derives .primary n text (.eq field value) rest
  | flag {n : Nat} {text rest : List Char} {field : String} :
      Name text field rest → Derives .primary n text (.flag field) rest

/-- Phrases of one kind, each behind blanks and an operator. -/
inductive Repeats : Operator → Symbol → Nat → List Char → List Expr → List Char → Prop
  | none {op : Operator} {symbol : Symbol} {n : Nat} (text : List Char) :
      Repeats op symbol n text [] text
  | more {op : Operator} {symbol : Symbol} {n : Nat} {text sign behind mid rest : List Char}
      {e : Expr} {es : List Expr} :
      Blanks text sign → Sign op sign behind → Derives symbol n behind e mid →
        Repeats op symbol n mid es rest → Repeats op symbol n text (e :: es) rest

end

/-- The whole text is a rule of this tree, perhaps with blanks at its end. -/
def IsRule (n : Nat) (text : List Char) (e : Expr) : Prop :=
  ∃ rest, Derives .disjunction n text e rest ∧ Blanks rest []

end Grammar

end RecordRules
