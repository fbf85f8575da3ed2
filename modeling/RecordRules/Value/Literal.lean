import RecordRules.Value
import RecordRules.Text.Lexeme

/-!
Literals of rule text: how a value is written, and how a literal is read.  A string stands
between double quotes with four escapes; an integer is in decimal without leading zeros.
-/

namespace RecordRules

namespace Literal

/-- One character of a string as it stands between the quotes. -/
def escape : Char → List Char
  | '"' => ['\\', '"']
  | '\\' => ['\\', '\\']
  | '\n' => ['\\', 'n']
  | '\t' => ['\\', 't']
  | c => [c]

/-- The character that a backslash and `c` stand for, where there is one. -/
def unescape? : Char → Option Char
  | '"' => some '"'
  | '\\' => some '\\'
  | 'n' => some '\n'
  | 't' => some '\t'
  | _ => none

def ofInt (i : Int) : List Char :=
  if i < 0 then '-' :: Nat.toDigits 10 i.natAbs else Nat.toDigits 10 i.natAbs

def trueWord : List Char := ['t', 'r', 'u', 'e']

def falseWord : List Char := ['f', 'a', 'l', 's', 'e']

def ofValue : Value → List Char
  | .bool true => trueWord
  | .bool false => falseWord
  | .int i => ofInt i.toInt
  | .str s => '"' :: s.toList.flatMap escape ++ ['"']

/-- Reads the inside of a string up to its closing quote.  What was read is gathered in
`body`, last character first; a backslash before a character that it does not escape stays. -/
def readBody? (body : List Char) : List Char → Option (List Char × List Char)
  | [] => none
  | '"' :: text => some (body.reverse, text)
  | ['\\'] => none
  | '\\' :: c :: text =>
      match unescape? c with
      | some d => readBody? (d :: body) text
      | none => readBody? (c :: '\\' :: body) text
  | c :: text => readBody? (c :: body) text

def readString? : List Char → Option (List Char × List Char)
  | '"' :: text => readBody? [] text
  | _ => none

/-- Reads a positive number: the longest run of digits, of which the first is not zero. -/
def readPositive? (text : List Char) : Option (Nat × List Char) :=
  if (text.takeWhile Char.isDigit).head?.any (· ≠ '0') then
    some (Nat.ofDigitChars 10 (text.takeWhile Char.isDigit) 0, text.dropWhile Char.isDigit)
  else
    none

/-- Reads an integer: zero, or a positive number that may follow a sign. -/
def readInt? : List Char → Option (Int × List Char)
  | '0' :: text => some (0, text)
  | '-' :: text => (readPositive? text).map fun (n, rest) => (-n, rest)
  | '+' :: text => (readPositive? text).map fun (n, rest) => (n, rest)
  | text => (readPositive? text).map fun (n, rest) => (n, rest)

def int64? (i : Int) : Option Int64 :=
  if Int64.minValue.toInt ≤ i ∧ i ≤ Int64.maxValue.toInt then some (Int64.ofInt i) else none

def read? (text : List Char) : Option (Value × List Char) :=
  match readString? text with
  | some (body, rest) => some (.str (String.ofList body), rest)
  | none =>
      match Lexeme.afterWord? trueWord text with
      | some rest => some (.bool true, rest)
      | none =>
          match Lexeme.afterWord? falseWord text with
          | some rest => some (.bool false, rest)
          | none =>
              match readInt? text with
              | some (i, rest) => (int64? i).map fun i => (.int i, rest)
              | none => none

theorem length_of_readBody? {body text content rest : List Char}
    (h : readBody? body text = some (content, rest)) : rest.length < text.length := by
  fun_induction readBody? body text with
  | case1 => cases h
  | case2 => cases h; simp
  | case3 => cases h
  | case4 body c text d hd ih | case5 body c text hd ih => have := ih h; simp; omega
  | case6 => next ih => have := ih h; simp; omega

theorem length_of_readPositive? {text rest : List Char} {n : Nat}
    (h : readPositive? text = some (n, rest)) : rest.length < text.length := by
  unfold readPositive? at h
  split at h
  · next hhead =>
      simp only [Option.some.injEq, Prod.mk.injEq] at h
      obtain ⟨-, rfl⟩ := h
      have hsplit := congrArg List.length
        (List.takeWhile_append_dropWhile (p := Char.isDigit) (l := text))
      have hpos : 0 < (text.takeWhile Char.isDigit).length := by
        cases hdigits : text.takeWhile Char.isDigit with
        | nil => simp [hdigits] at hhead
        | cons => simp
      simp only [List.length_append] at hsplit
      omega
  · cases h

theorem length_of_readInt? {text rest : List Char} {i : Int}
    (h : readInt? text = some (i, rest)) : rest.length < text.length := by
  unfold readInt? at h
  split at h
  · cases h; simp
  all_goals
    obtain ⟨⟨n, rest'⟩, hn, heq⟩ := Option.map_eq_some_iff.1 h
    cases heq
    have := length_of_readPositive? hn
    simp only [List.length_cons] at *
    omega

/-- A literal takes at least one character of the text. -/
theorem length_of_read? {text rest : List Char} {v : Value}
    (h : read? text = some (v, rest)) : rest.length < text.length := by
  unfold read? at h
  split at h
  · next body rest' hbody =>
      cases h
      unfold readString? at hbody
      split at hbody
      · have := length_of_readBody? hbody
        simp; omega
      · cases hbody
  · split at h
    · next hword =>
        cases h
        simp [(Lexeme.afterWord?_eq_some_iff.1 hword).1, trueWord]
        omega
    · split at h
      · next hword =>
          cases h
          simp [(Lexeme.afterWord?_eq_some_iff.1 hword).1, falseWord]
          omega
      · split at h
        · next i rest' hint =>
            obtain ⟨_, -, heq⟩ := Option.map_eq_some_iff.1 h
            cases heq
            exact length_of_readInt? hint
        · cases h

end Literal

end RecordRules
