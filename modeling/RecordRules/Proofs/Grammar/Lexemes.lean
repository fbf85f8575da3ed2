import RecordRules.Expr.Reader
import RecordRules.Proofs.Grammar

/-!
The lexical readers and the lexical relations of the grammar say the same.  Where a relation
takes a run of blanks of any length, the reader takes the longest one.
-/

namespace RecordRules

namespace Grammar

/-- What holds of the characters of a list is checked one by one. -/
theorem forall_mem_of_all {p : Char → Prop} [DecidablePred p] {cs : List Char}
    (h : cs.all fun c => decide (p c)) : ∀ c ∈ cs, p c := by
  intro c hc
  exact of_decide_eq_true (List.all_eq_true.1 h c hc)

theorem isBlank_iff (c : Char) : Lexeme.isBlank c = true ↔ c ∈ blanks := by
  simp [Lexeme.isBlank, blanks, or_assoc]

theorem isAlpha_iff (c : Char) : c.isAlpha = true ↔ IsLetter c := by
  have hupper : c.isUpper = true ↔ 'A' ≤ c ∧ c ≤ 'Z' := decide_eq_true_iff
  have hlower : c.isLower = true ↔ 'a' ≤ c ∧ c ≤ 'z' :=
    (Bool.and_eq_true_iff).trans (and_congr decide_eq_true_iff decide_eq_true_iff)
  exact Bool.or_eq_true_iff.trans ((or_congr hupper hlower).trans Or.comm)

theorem isDigit_iff (c : Char) : c.isDigit = true ↔ IsDigit c := by
  simp [Char.isDigit, IsDigit, Char.le_def]

theorem isNameStart_iff (c : Char) : Lexeme.isNameStart c = true ↔ IsLetter c ∨ c = '_' := by
  simp [Lexeme.isNameStart, isAlpha_iff]

theorem isNameChar_iff (c : Char) : Lexeme.isNameChar c = true ↔ IsNameChar c := by
  simp [Lexeme.isNameChar, IsNameChar, Char.isAlphanum, isAlpha_iff, isDigit_iff, or_assoc]

theorem stops_iff (rest : List Char) :
    Stops rest ↔ rest.head?.any Lexeme.isNameChar = false := by
  cases rest with
  | nil => simp [Stops]
  | cons c rest => simp [Stops, ← isNameChar_iff]

theorem stops_nil : Stops [] := by
  simp [Stops]

theorem blanks_skipBlank (text : List Char) : Blanks text (Lexeme.skipBlank text) := by
  refine ⟨text.takeWhile Lexeme.isBlank, ?_, List.takeWhile_append_dropWhile.symm⟩
  intro c hc
  exact (isBlank_iff c).1 (List.all_eq_true.1 List.all_takeWhile c hc)

/-- A run of blanks makes no difference to where the blanks end. -/
theorem Blanks.skipBlank_eq {text rest : List Char} (h : Blanks text rest) :
    Lexeme.skipBlank text = Lexeme.skipBlank rest := by
  obtain ⟨run, hrun, rfl⟩ := h
  induction run with
  | nil => rfl
  | cons c run ih =>
      have hc := (isBlank_iff c).2 (hrun c List.mem_cons_self)
      rw [List.cons_append, Lexeme.skipBlank, List.dropWhile_cons_of_pos hc]
      exact ih fun d hd => hrun d (List.mem_cons_of_mem c hd)

theorem skipBlank_cons {c : Char} (rest : List Char) (h : c ∉ blanks) :
    Lexeme.skipBlank (c :: rest) = c :: rest := by
  rw [← isBlank_iff] at h
  exact List.dropWhile_cons_of_neg h

/-- Where the first character behind blanks is known, the blanks end at it. -/
theorem Blanks.skipBlank_cons {text rest : List Char} {c : Char} (h : Blanks text (c :: rest))
    (hc : c ∉ blanks) : Lexeme.skipBlank text = c :: rest :=
  h.skipBlank_eq.trans (Grammar.skipBlank_cons rest hc)

theorem blanks_nil_iff (text : List Char) : Blanks text [] ↔ Lexeme.skipBlank text = [] := by
  constructor
  · intro h
    exact h.skipBlank_eq
  · intro h
    simpa [h] using blanks_skipBlank text

theorem afterWord?_eq_some_iff (word : String) (text rest : List Char) :
    Lexeme.afterWord? word.toList text = some rest ↔ Word word text rest := by
  rw [Lexeme.afterWord?_eq_some_iff, Word, stops_iff]

/-- The first characters of the spellings of an operator. -/
def firsts : Operator → List Char
  | .and => ['&', 'a', 'A']
  | .or => ['|', 'o', 'O']
  | .not => ['!', 'n', 'N']

theorem Sign.exists_first {op : Operator} {text rest : List Char} (h : Sign op text rest) :
    ∃ c ∈ firsts op, ∃ tail, text = c :: tail := by
  cases h with
  | punctuation => cases op <;> exact ⟨_, List.mem_cons_self, _, rfl⟩
  | word hw h =>
      obtain ⟨rfl, -⟩ := h
      cases op <;> simp only [words, List.mem_cons, List.not_mem_nil, or_false] at hw <;>
        rcases hw with rfl | rfl <;> simp [firsts]

theorem not_mem_blanks_of_mem_firsts {op : Operator} {c : Char} (h : c ∈ firsts op) :
    c ∉ blanks := by
  cases op <;> simp only [firsts, List.mem_cons, List.not_mem_nil, or_false] at h <;>
    rcases h with rfl | rfl | rfl <;> decide

theorem Blanks.skipBlank_of_sign {op : Operator} {text sign behind : List Char}
    (h : Blanks text sign) (hsign : Sign op sign behind) : Lexeme.skipBlank text = sign := by
  obtain ⟨c, hc, tail, rfl⟩ := hsign.exists_first
  exact h.skipBlank_cons (not_mem_blanks_of_mem_firsts hc)

/-- The operators are spelled as they are written. -/
theorem sign_iff (op : Operator) (text rest : List Char) :
    Sign op text rest ↔
      Lexeme.after? op.symbol text = some rest ∨ Lexeme.afterWord? op.word text = some rest ∨
        Lexeme.afterWord? op.capitals text = some rest := by
  have hsymbol : op.symbol = (punctuation op).toList := by cases op <;> rfl
  have hwords : words op = [String.ofList op.word, String.ofList op.capitals] := by
    cases op <;> rfl
  rw [hsymbol, Lexeme.after?_eq_some_iff, ← String.toList_ofList (l := op.word),
    ← String.toList_ofList (l := op.capitals), afterWord?_eq_some_iff, afterWord?_eq_some_iff]
  constructor
  · intro h
    cases h with
    | punctuation => exact .inl rfl
    | word hw h =>
        simp only [hwords, List.mem_cons, List.not_mem_nil, or_false] at hw
        rcases hw with rfl | rfl
        · exact .inr (.inl h)
        · exact .inr (.inr h)
  · rintro (rfl | h | h)
    · exact .punctuation rest
    · exact .word (by simp [hwords]) h
    · exact .word (by simp [hwords]) h

/-- Reading an operator tries three spellings, of which no two begin alike. -/
theorem after?_eq_some_iff (op : Operator) (text rest : List Char) :
    op.after? text = some rest ↔ Sign op text rest := by
  rw [sign_iff, Operator.after?]
  constructor
  · intro h
    split at h
    · next hsymbol => exact .inl (hsymbol.trans h)
    · split at h
      · next hword => exact .inr (.inl (hword.trans h))
      · exact .inr (.inr h)
  · rintro (h | h | h)
    · rw [h]
    · obtain ⟨rfl, -⟩ := Lexeme.afterWord?_eq_some_iff.1 h
      have hsymbol : Lexeme.after? op.symbol (op.word ++ rest) = none := by
        cases op <;> simp [Operator.symbol, Operator.word, Lexeme.after?]
      simp only [hsymbol, h]
    · obtain ⟨rfl, -⟩ := Lexeme.afterWord?_eq_some_iff.1 h
      have hsymbol : Lexeme.after? op.symbol (op.capitals ++ rest) = none := by
        cases op <;> simp [Operator.symbol, Operator.capitals, Lexeme.after?]
      have hword : Lexeme.afterWord? op.word (op.capitals ++ rest) = none := by
        cases op <;> simp [Operator.word, Operator.capitals, Lexeme.afterWord?, Lexeme.after?]
      simp only [hsymbol, hword, h]

/-- A run of characters of one class, followed by none of the class, is the longest run. -/
theorem span_append {p : Char → Bool} {run rest : List Char} (hrun : ∀ c ∈ run, p c = true)
    (hrest : rest.head?.any p = false) :
    (run ++ rest).takeWhile p = run ∧ (run ++ rest).dropWhile p = rest := by
  rw [List.takeWhile_append_of_pos hrun, List.dropWhile_append_of_pos hrun]
  cases rest with
  | nil => simp
  | cons c rest =>
      have hc : p c = false := by simpa using hrest
      simp [hc]

/-- The longest run of a class is followed by none of the class. -/
theorem any_head?_dropWhile (p : Char → Bool) (text : List Char) :
    (text.dropWhile p).head?.any p = false := by
  have hhead := List.head?_dropWhile_not p text
  cases hrest : (text.dropWhile p).head? with
  | none => rfl
  | some c =>
      rw [hrest] at hhead
      simpa using hhead

/-- A letter or an underscore, and characters that continue it. -/
def IsWord (word : List Char) : Prop :=
  ∃ c tail, word = c :: tail ∧ (IsLetter c ∨ c = '_') ∧ ∀ d ∈ tail, IsNameChar d

theorem IsWord.isNameChar {word : List Char} (h : IsWord word) : ∀ c ∈ word, IsNameChar c := by
  obtain ⟨c, tail, rfl, hstart, htail⟩ := h
  intro d hd
  rcases List.mem_cons.1 hd with rfl | hd
  · rcases hstart with hletter | hline
    · exact .inl hletter
    · exact .inr (.inr (.inl hline))
  · exact htail d hd

theorem Identifier.isWord {name : String} (h : Identifier name) : IsWord name.toList :=
  h.1

theorem Identifier.isNameChar {name : String} (h : Identifier name) :
    ∀ c ∈ name.toList, IsNameChar c :=
  h.isWord.isNameChar

theorem isName_iff (name : String) : Lexeme.isName name.toList = true ↔ Identifier name := by
  have hreserved : name.toList ∈ Lexeme.keywords ↔ name ∈ reserved := by
    simp [Lexeme.keywords, reserved, String.ext_iff]
  rw [Lexeme.isName, Identifier]
  simp only [Bool.and_eq_true, Bool.not_eq_true', List.contains_eq_mem, decide_eq_false_iff_not,
    hreserved, Option.any_eq_true, List.all_eq_true, isNameStart_iff, isNameChar_iff]
  constructor
  · rintro ⟨⟨⟨c, hc, hstart⟩, hall⟩, hfree⟩
    obtain ⟨tail, htail⟩ := List.head?_eq_some_iff.1 hc
    refine ⟨⟨c, tail, htail, hstart, fun d hd => ?_⟩, hfree⟩
    exact hall d (htail ▸ List.mem_cons_of_mem c hd)
  · intro h
    have hall := Identifier.isNameChar h
    obtain ⟨⟨c, tail, hname, hstart, -⟩, hfree⟩ := h
    exact ⟨⟨⟨c, by simp [hname], hstart⟩, hall⟩, hfree⟩

/-- A name is read to its end, however it is followed. -/
theorem name?_eq_some_iff (text : List Char) (name : String) (rest : List Char) :
    Lexeme.name? text = some (name.toList, rest) ↔ Name text name rest := by
  rw [Name, ← isName_iff, stops_iff]
  constructor
  · intro h
    obtain ⟨hname, htext⟩ := Lexeme.eq_append_of_name? h
    refine ⟨hname, htext, ?_⟩
    unfold Lexeme.name? at h
    split at h
    · simp only [Option.some.injEq, Prod.mk.injEq] at h
      obtain ⟨-, rfl⟩ := h
      exact any_head?_dropWhile Lexeme.isNameChar text
    · cases h
  · rintro ⟨hname, rfl, hstops⟩
    obtain ⟨htake, hdrop⟩ := span_append (p := Lexeme.isNameChar)
      (fun c hc => (isNameChar_iff c).2 (((isName_iff name).1 hname).isNameChar c hc)) hstops
    rw [Lexeme.name?, htake, hdrop, if_pos hname]

/-- Two runs of name characters at the start of one text are the same, if both stop. -/
theorem run_unique {run run' rest rest' : List Char} (h : run ++ rest = run' ++ rest')
    (hrun : ∀ c ∈ run, IsNameChar c) (hrest : Stops rest) (hrun' : ∀ c ∈ run', IsNameChar c)
    (hrest' : Stops rest') : run = run' := by
  rw [stops_iff] at hrest hrest'
  have hleft := (span_append (fun c hc => (isNameChar_iff c).2 (hrun c hc)) hrest).1
  have hright := (span_append (fun c hc => (isNameChar_iff c).2 (hrun' c hc)) hrest').1
  rw [← hleft, h, hright]

/-- A name and a word at the start of one text are the same. -/
theorem Name.eq_of_word {text rest behind : List Char} {name word : String}
    (h : Name text name rest) (hword : Word word text behind)
    (hall : ∀ c ∈ word.toList, IsNameChar c) : name = word := by
  obtain ⟨hname, hrest, hstops⟩ := h
  obtain ⟨hbehind, hstops'⟩ := hword
  exact String.toList_inj.1
    (run_unique (hrest.symm.trans hbehind) hname.isNameChar hstops hall hstops')

theorem Name.exists_first {text rest : List Char} {name : String} (h : Name text name rest) :
    ∃ c tail, text = c :: tail ∧ (IsLetter c ∨ c = '_') := by
  obtain ⟨⟨⟨c, tail, hname, hstart, -⟩, -⟩, rfl, -⟩ := h
  exact ⟨c, tail ++ rest, by rw [hname, List.cons_append], hstart⟩

/-- A name begins with no operator: the operator words are reserved. -/
theorem Name.not_sign {text rest : List Char} {name : String} (h : Name text name rest)
    (op : Operator) (behind : List Char) : ¬ Sign op text behind := by
  intro hsign
  cases hsign with
  | punctuation =>
      obtain ⟨c, tail, heq, hstart⟩ := h.exists_first
      cases op <;> cases heq <;> exact absurd hstart (by decide)
  | @word w _ _ hw hword =>
      have hall : ∀ c ∈ (words op).flatMap String.toList, IsNameChar c := by
        cases op <;> exact forall_mem_of_all (by decide)
      have hletters : ∀ c ∈ w.toList, IsNameChar c := by
        intro c hc
        exact hall c (List.mem_flatMap.2 ⟨w, hw, hc⟩)
      have hsub : words op ⊆ reserved := by
        cases op <;> decide
      obtain rfl := h.eq_of_word hword hletters
      exact h.1.2 (hsub hw)

end Grammar

end RecordRules
