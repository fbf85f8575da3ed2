import Mathlib.Data.Nat.Find
import RecordRules.Proofs.Grammar.Rendering

/-!
Strings of rule text.  A string is read up to the first quote that no backslash takes, and stands
for what is before that quote with its escapes resolved.  Every string is read back from how it is
written, whatever follows it.
-/

namespace RecordRules

namespace Grammar

/-- Whether the text ends in a backslash that takes the character behind it.  A character that was
taken takes none itself. -/
def takesNext (text : List Char) : Bool :=
  text.foldl (fun taken c => !taken && c = '\\') false

/-- The text with its escapes resolved.  What is no escape keeps its backslash. -/
def resolved : List Char → List Char
  | '\\' :: c :: text => escaped c ++ resolved text
  | c :: text => c :: resolved text
  | [] => []

/-- A quote of the text that no backslash takes, between what is before it and what is behind. -/
def FreeQuote (text before rest : List Char) : Prop :=
  text = before ++ '"' :: rest ∧ takesNext before = false

/-- The first quote of the text that no backslash takes. -/
structure ClosingQuote (text before rest : List Char) : Prop where
  free : FreeQuote text before rest
  first : ∀ before' rest', FreeQuote text before' rest' → before.length ≤ before'.length

section Quotes

variable {c : Char} {text before rest : List Char}

theorem takesNext_cons (h : c ≠ '\\') : takesNext (c :: text) = takesNext text := by
  simp [takesNext, h]

theorem takesNext_escape : takesNext ('\\' :: c :: text) = takesNext text := by
  simp [takesNext]

theorem takesNext_backslash : takesNext ['\\'] = true := rfl

theorem resolved_cons (h : c ≠ '\\') : resolved (c :: text) = c :: resolved text := by
  rw [resolved]
  intro _ _ heq
  exact absurd heq h

/-- The free quotes behind a plain character are those of the rest of the text. -/
theorem freeQuote_cons_iff (hquote : c ≠ '"') (hslash : c ≠ '\\') :
    FreeQuote (c :: text) before rest ↔
      ∃ before', before = c :: before' ∧ FreeQuote text before' rest := by
  constructor
  · rintro ⟨hsplit, hfree⟩
    cases before with
    | nil => exact absurd (List.cons.inj hsplit).1 hquote
    | cons d before =>
        rw [List.cons_append, List.cons.injEq] at hsplit
        obtain ⟨rfl, hsplit⟩ := hsplit
        rw [takesNext_cons hslash] at hfree
        exact ⟨before, rfl, hsplit, hfree⟩
  · rintro ⟨before, rfl, rfl, hfree⟩
    exact ⟨rfl, (takesNext_cons hslash).trans hfree⟩

/-- Neither a backslash nor the character that it takes is a free quote. -/
theorem freeQuote_escape_iff :
    FreeQuote ('\\' :: c :: text) before rest ↔
      ∃ before', before = '\\' :: c :: before' ∧ FreeQuote text before' rest := by
  constructor
  · rintro ⟨hsplit, hfree⟩
    match before with
    | [] => exact absurd (List.cons.inj hsplit).1 (by decide)
    | [d] =>
        cases (List.cons.inj hsplit).1
        cases takesNext_backslash.symm.trans hfree
    | d :: d' :: before =>
        simp only [List.cons_append, List.cons.injEq] at hsplit
        obtain ⟨rfl, rfl, hsplit⟩ := hsplit
        rw [takesNext_escape] at hfree
        exact ⟨before, rfl, hsplit, hfree⟩
  · rintro ⟨before, rfl, rfl, hfree⟩
    exact ⟨rfl, takesNext_escape.trans hfree⟩

/-- A run that holds no free quote is before the first one. -/
theorem closingQuote_append_iff (run : List Char)
    (h : ∀ before rest, FreeQuote (run ++ text) before rest ↔
      ∃ before', before = run ++ before' ∧ FreeQuote text before' rest) :
    ClosingQuote (run ++ text) (run ++ before) rest ↔ ClosingQuote text before rest := by
  constructor
  · intro hclosing
    obtain ⟨before', heq, hfree⟩ := (h _ rest).1 hclosing.free
    obtain rfl := List.append_cancel_left heq
    refine ⟨hfree, ?_⟩
    intro before' rest' hfree'
    have hle := hclosing.first _ rest' ((h _ rest').2 ⟨before', rfl, hfree'⟩)
    simpa using hle
  · intro hclosing
    refine ⟨(h _ rest).2 ⟨before, rfl, hclosing.free⟩, ?_⟩
    intro before' rest' hfree'
    obtain ⟨tail, rfl, htail⟩ := (h before' rest').1 hfree'
    have hle := hclosing.first tail rest' htail
    simpa using hle

theorem closingQuote_cons_iff (hquote : c ≠ '"') (hslash : c ≠ '\\') :
    ClosingQuote (c :: text) (c :: before) rest ↔ ClosingQuote text before rest :=
  closingQuote_append_iff [c] fun _ _ => freeQuote_cons_iff hquote hslash

theorem closingQuote_escape_iff :
    ClosingQuote ('\\' :: c :: text) ('\\' :: c :: before) rest ↔
      ClosingQuote text before rest :=
  closingQuote_append_iff ['\\', c] fun _ _ => freeQuote_escape_iff

/-- Where there is a quote that no backslash takes, one of them is the first. -/
theorem FreeQuote.exists_closingQuote (h : FreeQuote text before rest) :
    ∃ before rest, ClosingQuote text before rest := by
  classical
  have hsome : ∃ n before rest, before.length = n ∧ FreeQuote text before rest :=
    ⟨before.length, before, rest, rfl, h⟩
  obtain ⟨first, behind, hlength, hfree⟩ := Nat.find_spec hsome
  refine ⟨first, behind, hfree, ?_⟩
  intro before' rest' hfree'
  rw [hlength]
  exact Nat.find_min' hsome ⟨before', rest', rfl, hfree'⟩

end Quotes

/-- The inside of a string ends at its closing quote, and stands for its text with the escapes
resolved. -/
theorem Body.closingQuote {body content : List Char} (h : Body body content) (rest : List Char) :
    ClosingQuote (body ++ '"' :: rest) body rest ∧ content = resolved body := by
  induction h with
  | empty => exact ⟨⟨⟨rfl, rfl⟩, fun _ _ _ => Nat.zero_le _⟩, rfl⟩
  | plain hquote hslash _ ih =>
      obtain ⟨hclosing, rfl⟩ := ih
      exact ⟨(closingQuote_cons_iff hquote hslash).2 hclosing, (resolved_cons hslash).symm⟩
  | escape _ ih =>
      obtain ⟨hclosing, rfl⟩ := ih
      exact ⟨closingQuote_escape_iff.2 hclosing, rfl⟩

/-- What is before the closing quote is the inside of a string. -/
theorem ClosingQuote.body {text before rest : List Char} (h : ClosingQuote text before rest) :
    Body before (resolved before) := by
  obtain rfl := h.free.1
  fun_induction resolved before with
  | case1 c before ih => exact .escape (ih (closingQuote_escape_iff.1 h))
  | case2 c before hpair ih =>
      have hslash : c ≠ '\\' := by
        rintro rfl
        cases before with
        | nil => cases takesNext_backslash.symm.trans h.free.2
        | cons d before => exact hpair d before rfl rfl
      have hquote : c ≠ '"' := by
        rintro rfl
        exact Nat.not_succ_le_zero _ (h.first [] _ ⟨rfl, rfl⟩)
      exact .plain hquote hslash (ih ((closingQuote_cons_iff hquote hslash).1 h))
  | case3 => exact .empty

/-- A string is what is between its quotes, with the escapes resolved. -/
theorem readString?_eq_some_iff (text content rest : List Char) :
    Literal.readString? ('"' :: text) = some (content, rest) ↔
      ∃ before, ClosingQuote text before rest ∧ content = resolved before := by
  constructor
  · intro h
    obtain ⟨body, inside, hbody, rfl, rfl⟩ := body_of_readBody? h
    exact ⟨body, hbody.closingQuote rest⟩
  · rintro ⟨before, hclosing, rfl⟩
    rw [Literal.readString?, hclosing.free.1]
    exact readBody?_of_body hclosing.body [] rest

theorem readString?_ofValue (s : String) (rest : List Char) :
    Literal.readString? (Literal.ofValue (.str s) ++ rest) = some (s.toList, rest) := by
  have hread := readBody?_of_body (body_escape s.toList) [] rest
  simpa [Literal.ofValue, Literal.readString?] using hread

/-- A string is read back from how it is written, up to its last quote.  Behind an opening quote,
reading succeeds if and only if some quote is not taken by a backslash; it stops behind the first
such quote, with the escapes before it resolved.  What was read can be written and read again. -/
theorem readString?_closes :
    (∀ (s : String) (rest : List Char),
      Literal.readString? (Literal.ofValue (.str s) ++ rest) = some (s.toList, rest)) ∧
    (∀ text : List Char,
      (∃ content rest, Literal.readString? ('"' :: text) = some (content, rest)) ↔
        ∃ before rest, FreeQuote text before rest) ∧
    (∀ text content rest : List Char,
      Literal.readString? ('"' :: text) = some (content, rest) ↔
        ∃ before, ClosingQuote text before rest ∧ content = resolved before) ∧
    ∀ text content rest more : List Char, Literal.readString? text = some (content, rest) →
      Literal.readString? (Literal.ofValue (.str (String.ofList content)) ++ more) =
        some (content, more) := by
  refine ⟨readString?_ofValue, ?_, readString?_eq_some_iff, ?_⟩
  · intro text
    constructor
    · rintro ⟨content, rest, h⟩
      obtain ⟨before, hclosing, -⟩ := (readString?_eq_some_iff text content rest).1 h
      exact ⟨before, rest, hclosing.free⟩
    · rintro ⟨before, rest, hfree⟩
      obtain ⟨before, rest, hclosing⟩ := hfree.exists_closingQuote
      exact ⟨_, rest, (readString?_eq_some_iff text _ rest).2 ⟨before, hclosing, rfl⟩⟩
  · intro text content rest more _
    rw [readString?_ofValue, String.toList_ofList]

/-- Before the closing quote there stand an escaped quote, an escape that is none, and a backslash
that is itself taken. -/
theorem readString?_closes_taken_backslash :
    Literal.readString? "\"\\\"\\d\\\\\" or x".toList = some ("\"\\d\\".toList, " or x".toList) ∧
      Literal.readString? (Literal.ofValue (.str "\"\\d\\") ++ [')']) =
        some ("\"\\d\\".toList, [')']) := by
  have hread : Literal.readString? "\"\\\"\\d\\\\\" or x".toList =
      some ("\"\\d\\".toList, " or x".toList) := by
    decide
  have hagain := readString?_closes.2.2.2 _ _ _ [')'] hread
  rw [String.ofList_toList] at hagain
  exact ⟨hread, hagain⟩

end Grammar

end RecordRules
