import Mathlib.Algebra.Group.Int.Defs
import Mathlib.Algebra.Group.Nat.Defs
import RecordRules.Json.Number
import RecordRules.Json.Lexeme
import RecordRules.Json.Write
import RecordRules.Proofs.Grammar.Rendering

/-!
Strings and numbers of documents, written and read.  Every string has units that can be written and
that are decoded to it; every integer has a numeral that can be written and that is worth it.
-/

namespace RecordRules

namespace StringUnit

/-- A unit that can be written between quotes: a control character has a short escape, and a number
has four hexadecimal digits. -/
def Writable : StringUnit → Prop
  | .char c => 0x20 ≤ c.toNat ∨ c ∈ ['\x08', '\t', '\n', '\x0c', '\r']
  | .unit u => u < 0x10000

theorem hexDigit?_digitChar : ∀ d < 16, Json.hexDigit? d.digitChar = some d := by
  decide

theorem hexUnit?_digitChar {u : Nat} (h : u < 0x10000) :
    Json.hexUnit? (u / 0x1000 % 16).digitChar (u / 0x100 % 16).digitChar
      (u / 0x10 % 16).digitChar (u % 16).digitChar = some u := by
  have hdigit : ∀ n, Json.hexDigit? (n % 16).digitChar = some (n % 16) :=
    fun n => hexDigit?_digitChar _ (Nat.mod_lt n (by decide))
  have hsum : u / 0x1000 % 16 * 0x1000 + u / 0x100 % 16 * 0x100 + u / 0x10 % 16 * 0x10 + u % 16 =
      u := by
    omega
  simp [Json.hexUnit?, hdigit, hsum]

/-- A unit is read as it was written. -/
theorem readUnits?_write {u : StringUnit} (h : u.Writable) (units : List StringUnit)
    (text : List Char) :
    Json.readUnits? units (u.write ++ text) = Json.readUnits? (u :: units) text := by
  unfold write
  split
  case h_8 c hquote hslash hback htab hline hform hreturn =>
    have hplain : 0x20 ≤ c.toNat := by
      refine h.resolve_right ?_
      simp only [List.mem_cons, List.not_mem_nil, or_false, not_or]
      exact ⟨hback, htab, hline, hform, hreturn⟩
    rw [List.singleton_append, Json.readUnits?]
    · rw [if_neg (by simp only [not_or]; exact ⟨hslash, by omega⟩)]
    · exact hquote
    · intro _ _ _ _ _ heq
      exact absurd heq hslash
    · intro _ _ heq
      exact absurd heq hslash
  case h_9 u =>
    simp only [List.cons_append, List.nil_append, Json.readUnits?, hexUnit?_digitChar h]
  all_goals rfl

theorem readUnits?_flatMap_write {written : List StringUnit} (h : ∀ u ∈ written, u.Writable)
    (units : List StringUnit) (text : List Char) :
    Json.readUnits? units (written.flatMap write ++ '"' :: text) =
      some (units.reverse ++ written, text) := by
  induction written generalizing units with
  | nil => simp [Json.readUnits?]
  | cons u written ih =>
      rw [List.forall_mem_cons] at h
      rw [List.flatMap_cons, List.append_assoc, readUnits?_write h.1, ih h.2]
      simp

theorem readString?_writeString {written : List StringUnit} (h : ∀ u ∈ written, u.Writable)
    (text : List Char) : Json.readString? (writeString written ++ text) = some (written, text) := by
  have hread := readUnits?_flatMap_write h [] text
  have hquote : Json.skipBlank (writeString written ++ text) =
      '"' :: (written.flatMap write ++ '"' :: text) := by
    simp [writeString, Json.skipBlank, Json.isBlank]
  rw [Json.readString?, hquote]
  exact hread

theorem writable_ofChar (c : Char) : (ofChar c).Writable := by
  unfold ofChar
  split
  · next hcontrol =>
      simp only [Bool.and_eq_true, decide_eq_true_eq] at hcontrol
      exact Nat.lt_trans hcontrol.1 (by decide)
  · next hcontrol =>
      simp only [Bool.and_eq_true, decide_eq_true_eq, Bool.not_eq_true', not_and,
        Bool.not_eq_false, List.contains_eq_mem] at hcontrol
      by_cases hc : c.toNat < 0x20
      · exact .inr (hcontrol hc)
      · exact .inl (Nat.not_lt.1 hc)

theorem writable_encode (s : String) : ∀ u ∈ encode s, u.Writable := by
  intro u hu
  obtain ⟨c, -, rfl⟩ := List.mem_map.1 hu
  exact writable_ofChar c

/-- A character is decoded from its unit: one that goes by its number is no half of a pair. -/
theorem decodeBehind?_ofChar (found : List Char) (c : Char) (units : List StringUnit) :
    decodeBehind? found (ofChar c :: units) = decodeBehind? (c :: found) units := by
  unfold ofChar
  split
  · next hcontrol =>
      simp only [Bool.and_eq_true, decide_eq_true_eq] at hcontrol
      have hleading : isLeading c.toNat = false := by
        simp only [isLeading, Bool.and_eq_false_iff, decide_eq_false_iff_not]
        omega
      have htrailing : isTrailing c.toNat = false := by
        simp only [isTrailing, Bool.and_eq_false_iff, decide_eq_false_iff_not]
        omega
      match units with
      | [] | .char d :: units | .unit v :: units => simp [decodeBehind?, hleading, htrailing]
  · rfl

/-- Every string is decoded from its units. -/
theorem decode?_encode (s : String) : decode? (encode s) = some s := by
  have hbehind : ∀ cs found, decodeBehind? found (cs.map ofChar) = some (found.reverse ++ cs) := by
    intro cs
    induction cs with
    | nil => simp [decodeBehind?]
    | cons c cs ih =>
        intro found
        rw [List.map_cons, decodeBehind?_ofChar, ih]
        simp
  rw [decode?, encode, hbehind]
  simp

end StringUnit

namespace Numeral

def IsDigits (digits : List Char) : Prop :=
  digits ≠ [] ∧ ∀ c ∈ digits, c.isDigit = true

/-- A numeral that documents can have: it has no leading zeros, and digits behind its point and in
its power of ten, where it has these. -/
structure Writable (n : Numeral) : Prop where
  whole : IsDigits n.whole
  leading : n.whole = ['0'] ∨ ∃ c ∈ n.whole.head?, c ≠ '0'
  fraction : ∀ digits ∈ n.fraction, IsDigits digits
  exponent : ∀ power ∈ n.exponent, IsDigits power.2

def writeFraction : Option (List Char) → List Char
  | none => []
  | some digits => '.' :: digits

def writeExponent : Option (Bool × List Char) → List Char
  | none => []
  | some (negative, digits) => 'e' :: (if negative then '-' else '+') :: digits

theorem write_eq (n : Numeral) : n.write =
    sign n.negative ++ (n.whole ++ (writeFraction n.fraction ++ writeExponent n.exponent)) := by
  simp only [write, List.append_assoc]
  rfl

/-- What may follow a number: nothing that would continue it. -/
def Ends (rest : List Char) : Prop :=
  ∀ c ∈ rest.head?, c.isDigit = false ∧ c ≠ '.' ∧ c ≠ 'e' ∧ c ≠ 'E'

section Reading

variable {digits rest : List Char}

theorem readDigits?_append (h : IsDigits digits) (hrest : ∀ c ∈ rest.head?, c.isDigit = false) :
    Json.readDigits? (digits ++ rest) = some (digits, rest) := by
  have hends : rest.head?.any Char.isDigit = false := by
    simpa [Option.any_eq_false] using hrest
  obtain ⟨htake, hdrop⟩ := Grammar.span_append h.2 hends
  unfold Json.readDigits?
  rw [htake, hdrop]
  cases digits with
  | nil => exact absurd rfl h.1
  | cons => rfl

theorem readWhole?_append (h : IsDigits digits)
    (hleading : digits = ['0'] ∨ ∃ c ∈ digits.head?, c ≠ '0')
    (hrest : ∀ c ∈ rest.head?, c.isDigit = false) :
    Json.readWhole? (digits ++ rest) = some (digits, rest) := by
  rw [Json.readWhole?, readDigits?_append h hrest]
  rcases hleading with rfl | ⟨c, hc, hzero⟩
  · rfl
  · obtain ⟨tail, rfl⟩ := List.head?_eq_some_iff.1 hc
    split
    · next heq =>
        cases heq
        exact absurd rfl hzero
    · next heq =>
        cases heq
        exact absurd rfl hzero
    · rfl

theorem readFraction?_append {fraction : Option (List Char)}
    (h : ∀ digits ∈ fraction, IsDigits digits)
    (hrest : ∀ c ∈ rest.head?, c.isDigit = false ∧ c ≠ '.') :
    Json.readFraction? (writeFraction fraction ++ rest) = some (fraction, rest) := by
  cases fraction with
  | some digits =>
      have hread := readDigits?_append (h digits rfl) fun c hc => (hrest c hc).1
      rw [writeFraction, List.cons_append, Json.readFraction?, hread]
      rfl
  | none =>
      rw [writeFraction, List.nil_append]
      unfold Json.readFraction?
      split
      · exact absurd rfl (hrest '.' rfl).2
      · rfl

theorem readExponent?_append {exponent : Option (Bool × List Char)}
    (h : ∀ power ∈ exponent, IsDigits power.2) (hrest : Ends rest) :
    Json.readExponent? (writeExponent exponent ++ rest) = some (exponent, rest) := by
  cases exponent with
  | some power =>
      obtain ⟨negative, digits⟩ := power
      have hread := readDigits?_append (h _ rfl) fun c hc => (hrest c hc).1
      cases negative <;> simp [writeExponent, Json.readExponent?, hread]
  | none =>
      cases rest with
      | nil => rfl
      | cons c rest =>
          obtain ⟨-, -, hsmall, hcapital⟩ := hrest c rfl
          simp [writeExponent, Json.readExponent?, hsmall, hcapital]

/-- Neither a digit nor a point stands behind a fraction. -/
theorem head?_writeExponent (exponent : Option (Bool × List Char)) (hrest : Ends rest) :
    ∀ c ∈ (writeExponent exponent ++ rest).head?, c.isDigit = false ∧ c ≠ '.' := by
  intro c hc
  cases exponent with
  | none =>
      obtain ⟨hdigit, hpoint, -⟩ := hrest c hc
      exact ⟨hdigit, hpoint⟩
  | some power =>
      cases hc
      decide

/-- No digit stands behind the digits in front of the point. -/
theorem head?_writeFraction (fraction : Option (List Char))
    (hrest : ∀ c ∈ rest.head?, c.isDigit = false ∧ c ≠ '.') :
    ∀ c ∈ (writeFraction fraction ++ rest).head?, c.isDigit = false := by
  intro c hc
  cases fraction with
  | none => exact (hrest c hc).1
  | some digits =>
      cases hc
      decide

/-- A number is read as it was written, where nothing continues it. -/
theorem readNumeral?_write {n : Numeral} (h : n.Writable) (hrest : Ends rest) :
    Json.readNumeral? (n.write ++ rest) = some (n, rest) := by
  have hexponent := readExponent?_append h.exponent hrest
  have hbehind := head?_writeExponent n.exponent hrest
  have hfraction := readFraction?_append h.fraction hbehind
  have hwhole := readWhole?_append h.whole h.leading (head?_writeFraction n.fraction hbehind)
  have hunsigned : ∀ negative, Json.readUnsigned? negative (n.whole ++ (writeFraction n.fraction ++
      (writeExponent n.exponent ++ rest))) =
        some (⟨negative, n.whole, n.fraction, n.exponent⟩, rest) := by
    intro negative
    simp [Json.readUnsigned?, hwhole, hfraction, hexponent]
  simp only [write_eq, List.append_assoc]
  cases hsign : n.negative with
  | true =>
      rw [sign, if_pos rfl, List.singleton_append, Json.readNumeral?, hunsigned, ← hsign]
  | false =>
      obtain ⟨c, tail, hc⟩ := List.exists_cons_of_ne_nil h.whole.1
      have hdigit := h.whole.2 c (by simp [hc])
      rw [sign, if_neg (by decide), List.nil_append, Json.readNumeral?, hunsigned, ← hsign]
      rw [hc]
      rintro _ ⟨⟩
      exact absurd hdigit (by decide)

end Reading

/-- The digits of a natural number are written without leading zeros. -/
theorem leading_toDigits (n : Nat) :
    Nat.toDigits 10 n = ['0'] ∨ ∃ c ∈ (Nat.toDigits 10 n).head?, c ≠ '0' := by
  cases n with
  | zero => exact .inl rfl
  | succ n => exact .inr (Grammar.exists_head?_toDigits n.succ_pos)

theorem isDigits_toDigits (n : Nat) : IsDigits (Nat.toDigits 10 n) :=
  ⟨Nat.toDigits_ne_nil, fun _ hc => Nat.isDigit_of_mem_toDigits (by decide) (by decide) hc⟩

theorem writable_ofInt (i : Int) : (ofInt i).Writable where
  whole := isDigits_toDigits i.natAbs
  leading := leading_toDigits i.natAbs
  fraction := nofun
  exponent := nofun

/-- The numeral of an integer is worth that integer, if it fits 64 bits. -/
theorem integer?_ofInt {i : Int} (hlow : -2 ^ 63 ≤ i) (hhigh : i < 2 ^ 64) :
    (ofInt i).integer? = some i := by
  have hmagnitude : Nat.ofDigitChars 10 (ofInt i).whole 0 = i.natAbs :=
    Nat.ofDigitChars_ten_toDigits
  have hleast : Nat.pow 2 63 = 2 ^ 63 := rfl
  have hgreatest : greatest = 2 ^ 64 - 1 := rfl
  change (if (ofInt i).negative then _ else _) = some i
  rw [hmagnitude, hleast, hgreatest]
  by_cases hneg : i < 0
  · have hnegative : (ofInt i).negative = true := decide_eq_true hneg
    rw [if_pos hnegative, if_pos (by omega)]
    congr 1
    omega
  · have hnegative : ¬ (ofInt i).negative = true := by simpa [ofInt] using hneg
    rw [if_neg hnegative, if_pos (by omega)]
    congr 1
    omega

end Numeral

/-- Every 64-bit integer is worth what it is in a document. -/
theorem Json.int64?_ofInt (i : Int64) : (Json.ofInt i.toInt).int64? = some i := by
  have hlow : -2 ^ 63 ≤ i.toInt := i.minValue_le_toInt
  have hhigh : i.toInt ≤ 2 ^ 63 - 1 := i.toInt_le
  have hinteger := Numeral.integer?_ofInt hlow (by omega)
  rw [Json.ofInt, Json.int64?, hinteger, Option.bind_some]
  exact (Grammar.int64?_eq_some_iff _ _).2 rfl

end RecordRules
