import RecordRules.Proofs.Grammar.Tokens

/-!
Looking for something in front of a token needs no more of the text than that token.  Two texts
that are the same up to the end of the token are taken apart in the same way before it, and what is
missed in one of them is missed in the other.
-/

namespace RecordRules

namespace Grammar

/-- One of the texts ends in `r` and the other in `r'`, and they are the same before that. -/
def SameBefore (r r' text text' : List Char) : Prop :=
  ∃ before, text = before ++ r ∧ text' = before ++ r'

section Places

variable {r r' text text' rest : List Char}

theorem SameBefore.eq (h : SameBefore r r' r text') : text' = r' := by
  obtain ⟨before, hr, rfl⟩ := h
  obtain rfl : before = [] := List.append_left_eq_self.1 hr.symm
  rfl

theorem SameBefore.symm (h : SameBefore r r' text text') : SameBefore r' r text' text := by
  obtain ⟨before, htext, htext'⟩ := h
  exact ⟨before, htext', htext⟩

theorem SameBefore.head? (h : SameBefore r r' text text') (hr : SameToken r r') :
    text'.head? = text.head? := by
  obtain ⟨before, rfl, rfl⟩ := h
  rw [List.head?_append, List.head?_append, hr.head?]

theorem SameBefore.longest {text' rest' : List Char} (h : SameBefore r r' text text')
    (hrest : SameBefore r r' rest rest') (hr : SameToken r r') (hlongest : Longest text rest) :
    Longest text' rest' := by
  rwa [Longest, EndsDigits, h.head? hr, hrest.head? hr]

/-- What a local relation takes in front of the place, it takes of both texts. -/
theorem Local.sameBefore {P : List Char → List Char → Prop} (h : Local P text rest)
    (hr : SameToken r r') (hsame : SameBefore r r' text text') (hrest : r.length ≤ rest.length) :
    ∃ rest', P text' rest' ∧ SameBefore r r' rest rest' := by
  obtain ⟨run, rfl, hP⟩ := h
  obtain ⟨before, heq, rfl⟩ := hsame
  rcases List.append_eq_append_iff.1 heq with ⟨mid, rfl, rfl⟩ | ⟨mid, rfl, rfl⟩
  · refine ⟨mid ++ r', ?_, mid, rfl, rfl⟩
    rw [List.append_assoc]
    exact hP _ (stops_append mid hr.stops)
  · obtain rfl : mid = [] := by
      rw [← List.length_eq_zero_iff]
      simp only [List.length_append] at hrest
      omega
    refine ⟨r', ?_, [], rfl, rfl⟩
    rw [List.append_nil] at hP
    exact hP r' hr.stops

theorem skipBlank_append {c : Char} (before tail : List Char) (hc : c ∉ blanks) :
    Lexeme.skipBlank (before ++ c :: tail) = Lexeme.skipBlank before ++ c :: tail := by
  rw [Lexeme.skipBlank, List.dropWhile_append, Lexeme.skipBlank]
  split
  · next hempty =>
      rw [List.isEmpty_iff.1 hempty]
      exact skipBlank_cons tail hc
  · rfl

theorem SameBefore.skipBlank (h : SameBefore r r' text text') (hr : SameToken r r') :
    SameBefore r r' (Lexeme.skipBlank text) (Lexeme.skipBlank text') := by
  obtain ⟨c, tail, tail', rfl, rfl, hc⟩ := hr.exists_first
  obtain ⟨before, rfl, rfl⟩ := h
  exact ⟨Lexeme.skipBlank before, skipBlank_append before tail hc, skipBlank_append before tail' hc⟩

/-- A symbol may begin before the place and end in the token behind it. -/
theorem SameBefore.exists_symbol {symbol : String} (h : SameBefore r r' text text')
    (hr : SameToken r r') (hsymbol : symbol ∈ symbols) (htext : text = symbol.toList ++ rest) :
    ∃ rest', text' = symbol.toList ++ rest' := by
  obtain ⟨before, rfl, rfl⟩ := h
  rcases List.append_eq_append_iff.1 htext with ⟨mid, heq, rfl⟩ | ⟨mid, rfl, -⟩
  · rcases before with _ | ⟨c, before⟩
    · obtain rfl : symbol.toList = mid := heq
      exact hr.exists_symbol hsymbol
    · have hlength : ∀ s ∈ symbols, s.toList.length ≤ 2 := by decide
      have hshort := hlength symbol hsymbol
      rw [heq]
      rcases mid with _ | ⟨d, _ | ⟨d', mid⟩⟩
      · exact ⟨r', by simp⟩
      · obtain ⟨_, _, tail', heq', rfl, -⟩ := hr.exists_first
        cases heq'
        exact ⟨tail', by simp⟩
      · simp only [heq, List.length_append, List.length_cons] at hshort
        omega
  · exact ⟨mid ++ r', List.append_assoc _ _ _⟩

/-- A word may begin before the place and end in the token behind it. -/
theorem SameBefore.exists_word {word : String} (h : SameBefore r r' text text')
    (hr : SameToken r r') (hletters : ∀ c ∈ word.toList, IsLetter c) (hword : Word word text rest) :
    ∃ rest', Word word text' rest' := by
  obtain ⟨before, rfl, rfl⟩ := h
  obtain ⟨htext, hrest⟩ := hword
  rcases List.append_eq_append_iff.1 htext with ⟨mid, heq, rfl⟩ | ⟨mid, rfl, rfl⟩
  · by_cases hmid : mid = []
    · subst hmid
      exact ⟨r', by rw [heq, List.append_nil], hr.stops hrest⟩
    · rw [heq, List.forall_mem_append] at hletters
      obtain ⟨rest', rfl, hrest'⟩ := hr.exists_word (isWord_of_letters hmid hletters.2) hrest
      exact ⟨rest', by rw [heq, List.append_assoc], hrest'⟩
  · exact ⟨mid ++ r', List.append_assoc _ _ _, stops_append mid hr.stops hrest⟩

theorem SameBefore.exists_sign {op : Operator} (h : SameBefore r r' text text')
    (hr : SameToken r r') (hsign : Sign op text rest) : ∃ rest', Sign op text' rest' := by
  cases hsign with
  | punctuation =>
      have hsymbol : punctuation op ∈ symbols := by cases op <;> decide
      obtain ⟨rest', rfl⟩ := h.exists_symbol hr hsymbol rfl
      exact ⟨rest', .punctuation rest'⟩
  | @word word _ _ hmem hword =>
      have hall : ∀ c ∈ (words op).flatMap String.toList, IsLetter c := by
        cases op <;> exact forall_mem_of_all (by decide)
      have hletters : ∀ c ∈ word.toList, IsLetter c := by
        intro c hc
        exact hall c (List.mem_flatMap.2 ⟨word, hmem, hc⟩)
      obtain ⟨rest', hword'⟩ := h.exists_word hr hletters hword
      exact ⟨rest', .word hmem hword'⟩

end Places

/-- Looking for something at the start of a text has the same outcome in front of `r` and `r'`. -/
structure Peeks (r r' : List Char) (look : List Char → Option (List Char)) : Prop where
  short {text rest : List Char} : look text = some rest → rest.length ≤ text.length
  found {text text' rest : List Char} : SameBefore r r' text text' → look text = some rest →
    r.length ≤ rest.length → ∃ rest', look text' = some rest' ∧ SameBefore r r' rest rest'
  missed {text text' : List Char} : SameBefore r r' text text' → look text = none →
    look text' = none

/-- Looking for what must be there has the same outcome in front of `r` and `r'`.  Only at the
place itself is it known to be missed alike. -/
structure Needs {α : Type} (r r' : List Char) (look : List Char → Option (α × List Char)) :
    Prop where
  short {text rest : List Char} {a : α} : look text = some (a, rest) → rest.length ≤ text.length
  found {text text' rest : List Char} {a : α} : SameBefore r r' text text' →
    look text = some (a, rest) → r.length ≤ rest.length →
      ∃ rest', look text' = some (a, rest') ∧ SameBefore r r' rest rest'
  missed : look r = none → look r' = none

section Lookups

variable {r r' : List Char} {look : List Char → Option (List Char)}

theorem peeks_of_local {P : List Char → List Char → Prop} (hr : SameToken r r')
    (hlook : ∀ text rest, look text = some rest ↔ P text rest)
    (hlocal : ∀ {text rest}, P text rest → Local P text rest)
    (hsame : ∀ {text text' rest}, SameBefore r' r text text' → P text rest →
      ∃ rest', P text' rest') :
    Peeks r r' look where
  short h := by
    obtain ⟨run, rfl, -⟩ := hlocal ((hlook _ _).1 h)
    simp
  found htext h hrest := by
    obtain ⟨rest', hrest', hsame⟩ := (hlocal ((hlook _ _).1 h)).sameBefore hr htext hrest
    exact ⟨rest', (hlook _ _).2 hrest', hsame⟩
  missed {text text'} htext h := by
    cases hfound : look text' with
    | none => rfl
    | some rest' =>
        obtain ⟨rest, hrest⟩ := hsame htext.symm ((hlook _ _).1 hfound)
        rw [(hlook _ _).2 hrest] at h
        cases h

theorem peeks_symbol {symbol : String} (hr : SameToken r r') (hsymbol : symbol ∈ symbols) :
    Peeks r r' (Lexeme.after? symbol.toList) := by
  apply peeks_of_local hr (fun text rest => Lexeme.after?_eq_some_iff)
  · rintro _ rest rfl
    exact local_append _ rest
  · intro text text' rest hsame htext
    exact hsame.exists_symbol hr.symm hsymbol htext

theorem peeks_operator (hr : SameToken r r') (op : Operator) : Peeks r r' op.after? :=
  peeks_of_local hr (after?_eq_some_iff op) Sign.isLocal fun hsame => hsame.exists_sign hr.symm

theorem Peeks.behind_blanks (h : Peeks r r' look) (hr : SameToken r r') :
    Peeks r r' fun text => look (Lexeme.skipBlank text) where
  short hlook := Nat.le_trans (h.short hlook) (Lexeme.length_skipBlank_le _)
  found htext hlook hrest := h.found (htext.skipBlank hr) hlook hrest
  missed htext hlook := h.missed (htext.skipBlank hr) hlook

theorem needs_name (hr : SameToken r r') : Needs r r' Lexeme.name? where
  short h := Nat.le_of_lt (Lexeme.length_of_name? h)
  found {text text' rest name} htext h hrest := by
    rw [← String.toList_ofList (l := name), name?_eq_some_iff] at h
    obtain ⟨rest', hname, hsame⟩ := h.isLocal.sameBefore hr htext hrest
    rw [← name?_eq_some_iff, String.toList_ofList] at hname
    exact ⟨rest', hname, hsame⟩
  missed h := by
    cases hname : Lexeme.name? r' with
    | none => rfl
    | some found =>
        obtain ⟨name, rest'⟩ := found
        rw [← String.toList_ofList (l := name), name?_eq_some_iff] at hname
        obtain ⟨hname, rfl, hstops⟩ := hname
        obtain ⟨rest, rfl, hstops⟩ := hr.symm.exists_word hname.isWord hstops
        rw [(name?_eq_some_iff _ _ rest).2 ⟨hname, rfl, hstops⟩] at h
        cases h

theorem needs_literal (hr : SameToken r r') : Needs r r' Literal.read? where
  short h := Nat.le_of_lt (Literal.length_of_read? h)
  found htext h hrest := by
    obtain ⟨hliteral, hlongest⟩ := literal_of_read? h
    obtain ⟨rest', hliteral', hsame⟩ := hliteral.isLocal.sameBefore hr htext hrest
    exact ⟨rest', read?_of_literal hliteral' (htext.longest hsame hr hlongest), hsame⟩
  missed h := by
    cases hread : Literal.read? r' with
    | none => rfl
    | some found =>
        obtain ⟨value, rest, hfound⟩ := hr.symm.exists_read? hread
        cases h.symm.trans hfound

end Lookups

end Grammar

end RecordRules
