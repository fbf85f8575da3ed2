import RecordRules.Proofs.Grammar.Lexemes

/-!
The readers of literals and the literals of the grammar.  What is read is a literal of the
grammar; a literal of the grammar is read where no digit follows it.
-/

namespace RecordRules

namespace Grammar

theorem escaped_eq (c : Char) :
    escaped c = match Literal.unescape? c with
      | some d => [d]
      | none => ['\\', c] := by
  unfold escaped Literal.unescape?
  split <;> simp

/-- Reading the inside of a string stops behind the first quote that is not escaped. -/
theorem body_of_readBody? {gathered text content rest : List Char}
    (h : Literal.readBody? gathered text = some (content, rest)) :
    ∃ body inside, Body body inside ∧ text = body ++ '"' :: rest ∧
      content = gathered.reverse ++ inside := by
  fun_induction Literal.readBody? gathered text with
  | case1 => cases h
  | case2 gathered text =>
      cases h
      exact ⟨[], [], .empty, rfl, (List.append_nil _).symm⟩
  | case3 => cases h
  | case4 gathered c text d hd ih | case5 gathered c text hd ih =>
      obtain ⟨body, inside, hbody, rfl, rfl⟩ := ih h
      refine ⟨'\\' :: c :: body, escaped c ++ inside, .escape hbody, rfl, ?_⟩
      simp [escaped_eq, hd]
  | case6 gathered c text hquote hlast hpair ih =>
      obtain ⟨body, inside, hbody, rfl, rfl⟩ := ih h
      have hslash : c ≠ '\\' := by
        intro heq
        cases hrest : body ++ '"' :: rest with
        | nil => exact hlast heq hrest
        | cons d tail => exact hpair d tail heq hrest
      exact ⟨c :: body, c :: inside, .plain hquote hslash hbody, rfl, by simp⟩

theorem readBody?_of_body {body inside : List Char} (h : Body body inside)
    (gathered rest : List Char) :
    Literal.readBody? gathered (body ++ '"' :: rest) =
      some (gathered.reverse ++ inside, rest) := by
  induction h generalizing gathered with
  | empty => simp [Literal.readBody?]
  | plain hquote hslash _ ih =>
      rw [List.cons_append, Literal.readBody?]
      · simp [ih]
      · exact hquote
      · intro heq
        exact absurd heq hslash
      · intro d tail heq
        exact absurd heq hslash
  | @escape c body content _ ih =>
      rw [List.cons_append, List.cons_append, Literal.readBody?]
      cases hd : Literal.unescape? c with
      | some d => simp [ih, escaped_eq, hd]
      | none => simp [ih, escaped_eq, hd]

def EndsDigits (rest : List Char) : Prop :=
  rest.head?.any Char.isDigit = false

theorem positive_of_readPositive? {text rest : List Char} {n : Nat}
    (h : Literal.readPositive? text = some (n, rest)) :
    ∃ digits, Positive digits n ∧ text = digits ++ rest ∧ EndsDigits rest := by
  unfold Literal.readPositive? at h
  split at h
  · next hhead =>
      simp only [Option.some.injEq, Prod.mk.injEq] at h
      obtain ⟨rfl, rfl⟩ := h
      refine ⟨text.takeWhile Char.isDigit, ⟨?_, ?_, rfl⟩,
        List.takeWhile_append_dropWhile.symm, any_head?_dropWhile Char.isDigit text⟩
      · simpa [Option.any_eq_true] using hhead
      · intro c hc
        exact (isDigit_iff c).1 (List.all_eq_true.1 List.all_takeWhile c hc)
  · cases h

theorem readPositive?_of_positive {digits rest : List Char} {n : Nat} (h : Positive digits n)
    (hrest : EndsDigits rest) : Literal.readPositive? (digits ++ rest) = some (n, rest) := by
  obtain ⟨hhead, hall, rfl⟩ := h
  obtain ⟨htake, hdrop⟩ := span_append (fun c hc => (isDigit_iff c).2 (hall c hc)) hrest
  rw [Literal.readPositive?, htake, hdrop, if_pos]
  simpa [Option.any_eq_true] using hhead

/-- An integer is as long as the text lets it be.  Nothing continues a zero. -/
def EndsInteger (digits rest : List Char) : Prop :=
  digits = ['0'] ∨ EndsDigits rest

theorem integer_of_readInt? {text rest : List Char} {i : Int}
    (h : Literal.readInt? text = some (i, rest)) :
    ∃ digits, Integer digits i ∧ text = digits ++ rest ∧ EndsInteger digits rest := by
  unfold Literal.readInt? at h
  split at h
  · cases h
    exact ⟨['0'], .zero, rfl, .inl rfl⟩
  · obtain ⟨⟨n, rest'⟩, hn, heq⟩ := Option.map_eq_some_iff.1 h
    cases heq
    obtain ⟨digits, hdigits, rfl, hrest⟩ := positive_of_readPositive? hn
    exact ⟨'-' :: digits, .minus hdigits, rfl, .inr hrest⟩
  · obtain ⟨⟨n, rest'⟩, hn, heq⟩ := Option.map_eq_some_iff.1 h
    cases heq
    obtain ⟨digits, hdigits, rfl, hrest⟩ := positive_of_readPositive? hn
    exact ⟨'+' :: digits, .plus hdigits, rfl, .inr hrest⟩
  · obtain ⟨⟨n, rest'⟩, hn, heq⟩ := Option.map_eq_some_iff.1 h
    cases heq
    obtain ⟨digits, hdigits, rfl, hrest⟩ := positive_of_readPositive? hn
    exact ⟨digits, .unsigned hdigits, rfl, .inr hrest⟩

/-- A positive number begins with a digit from one to nine. -/
theorem Positive.exists_first {digits : List Char} {n : Nat} (h : Positive digits n) :
    ∃ c tail, digits = c :: tail ∧ c ≠ '0' ∧ IsDigit c := by
  obtain ⟨⟨c, hc, hzero⟩, hall, -⟩ := h
  obtain ⟨tail, rfl⟩ := List.head?_eq_some_iff.1 hc
  exact ⟨c, tail, rfl, hzero, hall c List.mem_cons_self⟩

theorem readInt?_of_integer {digits rest : List Char} {i : Int} (h : Integer digits i)
    (hrest : EndsInteger digits rest) : Literal.readInt? (digits ++ rest) = some (i, rest) := by
  cases h with
  | zero => rfl
  | unsigned hn =>
      obtain ⟨c, tail, rfl, hzero, hdigit⟩ := hn.exists_first
      have hends : EndsDigits rest := hrest.resolve_left fun heq => hzero (List.cons.inj heq).1
      have hread := readPositive?_of_positive hn hends
      rw [List.cons_append] at hread ⊢
      rw [Literal.readInt?, hread]
      · rfl
      · rintro _ ⟨⟩
        exact hzero rfl
      · rintro _ ⟨⟩
        exact absurd hdigit (by decide)
      · rintro _ ⟨⟩
        exact absurd hdigit (by decide)
  | plus hn | minus hn =>
      have hends : EndsDigits rest := hrest.resolve_left nofun
      rw [List.cons_append, Literal.readInt?, readPositive?_of_positive hn hends]
      rfl

/-- An integer has 64 bits if and only if it is one of the 64-bit integers. -/
theorem int64?_eq_some_iff (i : Int) (j : Int64) :
    Literal.int64? i = some j ↔ j.toInt = i := by
  unfold Literal.int64?
  constructor
  · intro h
    split at h
    · next hbounds =>
        cases h
        refine Int64.toInt_ofInt_of_le hbounds.1 ?_
        exact Int.lt_of_le_of_lt hbounds.2 (by decide)
    · cases h
  · rintro rfl
    rw [if_pos ⟨j.minValue_le_toInt, j.toInt_le⟩, Int64.ofInt_toInt]

/-- A literal takes what it can of the text: no digit follows one that is neither a string nor
zero. -/
def Longest (text rest : List Char) : Prop :=
  (∃ c ∈ text.head?, c = '"' ∨ c = '0') ∨ EndsDigits rest

theorem Stops.endsDigits {rest : List Char} (h : Stops rest) : EndsDigits rest := by
  cases rest with
  | nil => rfl
  | cons c rest =>
      have hc : ¬ IsNameChar c := h c rfl
      have hdigit : c.isDigit = false := by
        rw [Bool.eq_false_iff, ne_eq, isDigit_iff]
        exact fun hdigit => hc (.inr (.inl hdigit))
      simpa [EndsDigits] using hdigit

theorem EndsInteger.longest {digits rest : List Char} (h : EndsInteger digits rest) :
    Longest (digits ++ rest) rest := by
  rcases h with rfl | hrest
  · exact .inl ⟨'0', rfl, .inr rfl⟩
  · exact .inr hrest

theorem literal_of_read? {text rest : List Char} {value : Value}
    (h : Literal.read? text = some (value, rest)) :
    Literal text value rest ∧ Longest text rest := by
  unfold Literal.read? at h
  split at h
  · next content rest' hstring =>
      cases h
      unfold Literal.readString? at hstring
      split at hstring
      · obtain ⟨body, inside, hbody, rfl, rfl⟩ := body_of_readBody? hstring
        exact ⟨.string hbody, .inl ⟨'"', rfl, .inl rfl⟩⟩
      · cases hstring
  · split at h
    · next hword =>
        cases h
        have hword := (afterWord?_eq_some_iff "true" _ _).1 hword
        exact ⟨.true hword, .inr hword.2.endsDigits⟩
    · split at h
      · next hword =>
          cases h
          have hword := (afterWord?_eq_some_iff "false" _ _).1 hword
          exact ⟨.false hword, .inr hword.2.endsDigits⟩
      · split at h
        · next i rest' hint =>
            obtain ⟨j, hj, heq⟩ := Option.map_eq_some_iff.1 h
            cases heq
            obtain ⟨digits, hdigits, rfl, hrest⟩ := integer_of_readInt? hint
            rw [← (int64?_eq_some_iff i j).1 hj] at hdigits
            exact ⟨.integer j hdigits, hrest.longest⟩
        · cases h

/-- An integer begins with a digit or with a sign. -/
theorem Integer.exists_first {digits : List Char} {i : Int} (h : Integer digits i) :
    ∃ c tail, digits = c :: tail ∧ (IsDigit c ∨ c = '+' ∨ c = '-') := by
  cases h with
  | zero => exact ⟨'0', [], rfl, .inl (by decide)⟩
  | unsigned hn =>
      obtain ⟨c, tail, heq, -, hdigit⟩ := hn.exists_first
      exact ⟨c, tail, heq, .inl hdigit⟩
  | @plus digits => exact ⟨'+', digits, rfl, .inr (.inl rfl)⟩
  | @minus digits => exact ⟨'-', digits, rfl, .inr (.inr rfl)⟩

/-- An integer that begins with zero is zero. -/
theorem Integer.endsInteger {digits rest : List Char} {i : Int} (h : Integer digits i)
    (hrest : Longest (digits ++ rest) rest) : EndsInteger digits rest := by
  rcases hrest with ⟨c, hc, hfirst⟩ | hrest
  · cases h with
    | zero => exact .inl rfl
    | unsigned hn =>
        obtain ⟨d, tail, rfl, hzero, hdigit⟩ := hn.exists_first
        cases hc
        rcases hfirst with rfl | rfl
        · exact absurd hdigit (by decide)
        · exact absurd rfl hzero
    | plus | minus => cases hc; exact absurd hfirst (by decide)
  · exact .inr hrest

theorem Literal.exists_first {text rest : List Char} {value : Value}
    (h : Literal text value rest) : ∃ c tail, text = c :: tail ∧ c ∉ blanks := by
  cases h with
  | @string body => exact ⟨'"', body ++ '"' :: rest, rfl, by decide⟩
  | true hword => exact ⟨'t', _, hword.1, by decide⟩
  | false hword => exact ⟨'f', _, hword.1, by decide⟩
  | integer i hdigits =>
      obtain ⟨c, tail, rfl, hfirst⟩ := hdigits.exists_first
      refine ⟨c, tail ++ rest, rfl, fun hblank => ?_⟩
      have hnone : ∀ c ∈ blanks, ¬ (IsDigit c ∨ c = '+' ∨ c = '-') :=
        forall_mem_of_all (by decide)
      exact hnone c hblank hfirst

theorem readString?_cons {c : Char} (text : List Char) (h : c ≠ '"') :
    Literal.readString? (c :: text) = none := by
  unfold Literal.readString?
  split
  · next heq => exact absurd (List.cons.inj heq).1 h
  · rfl

theorem afterWord?_cons {c d : Char} (word text : List Char) (h : c ≠ d) :
    Lexeme.afterWord? (c :: word) (d :: text) = none := by
  simp [Lexeme.afterWord?, Lexeme.after?, h]

/-- A literal is read by the alternative that its first character tells. -/
theorem read?_of_literal {text rest : List Char} {value : Value}
    (h : Literal text value rest) (hrest : Longest text rest) :
    Literal.read? text = some (value, rest) := by
  unfold Literal.read?
  cases h with
  | string hbody =>
      rw [Literal.readString?, readBody?_of_body hbody]
      rfl
  | true hword =>
      have hread : Lexeme.afterWord? Literal.trueWord text = some rest :=
        (afterWord?_eq_some_iff "true" text rest).2 hword
      have hstring : Literal.readString? text = none := by
        rw [hword.1]
        exact readString?_cons _ (by decide)
      simp only [hstring, hread]
  | false hword =>
      have hread : Lexeme.afterWord? Literal.falseWord text = some rest :=
        (afterWord?_eq_some_iff "false" text rest).2 hword
      have hstring : Literal.readString? text = none := by
        rw [hword.1]
        exact readString?_cons _ (by decide)
      have htrue : Lexeme.afterWord? Literal.trueWord text = none := by
        rw [hword.1]
        exact afterWord?_cons _ _ (by decide)
      simp only [hstring, htrue, hread]
  | @integer digits _ i hdigits =>
      have hread := readInt?_of_integer hdigits (hdigits.endsInteger hrest)
      obtain ⟨c, tail, rfl, hfirst⟩ := hdigits.exists_first
      have hne : c ≠ '"' ∧ 't' ≠ c ∧ 'f' ≠ c := by
        refine ⟨?_, ?_, ?_⟩ <;> rintro rfl <;> exact absurd hfirst (by decide)
      rw [List.cons_append] at hread ⊢
      have hstring := readString?_cons (tail ++ rest) hne.1
      have htrue : Lexeme.afterWord? Literal.trueWord (c :: (tail ++ rest)) = none :=
        afterWord?_cons _ _ hne.2.1
      have hfalse : Lexeme.afterWord? Literal.falseWord (c :: (tail ++ rest)) = none :=
        afterWord?_cons _ _ hne.2.2
      simp only [hstring, htrue, hfalse, hread, (int64?_eq_some_iff i.toInt i).2 rfl,
        Option.map_some]

end Grammar

end RecordRules
