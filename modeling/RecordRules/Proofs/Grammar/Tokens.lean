import RecordRules.Proofs.Grammar.Locality

/-!
Tokens of rule text: symbols, words, integers and strings.  The first character of a token tells its
kind, and no token is the beginning of another one.  So what a reader looks for at the start of a
text is found or missed alike in all texts with the same first token.
-/

namespace RecordRules

namespace Grammar

inductive Kind where
  | symbol
  | word
  | integer
  | string
deriving DecidableEq

def symbols : List String :=
  ["(", ")", "!", "&&", "||", "=="]

/-- A complete token in front of a text.  A word does not run on, an integer has 64 bits and no
digit behind it, and a string has its closing quote. -/
inductive Token : Kind → List Char → List Char → Prop
  | symbol {symbol : String} {rest : List Char} :
      symbol ∈ symbols → Token .symbol symbol.toList rest
  | word {word rest : List Char} : IsWord word → Stops rest → Token .word word rest
  | integer {digits rest : List Char} (i : Int64) :
      Integer digits i.toInt → EndsInteger digits rest → Token .integer digits rest
  | string {body content rest : List Char} :
      Body body content → Token .string ('"' :: (body ++ ['"'])) rest

/-- The two texts begin with the same complete token. -/
def SameToken (text text' : List Char) : Prop :=
  ∃ kind token rest rest', Token kind token rest ∧ Token kind token rest' ∧
    text = token ++ rest ∧ text' = token ++ rest'

section Kinds

variable {c : Char} {kind : Kind} {token rest : List Char}

/-- The kind of the tokens that begin with this character, if there are any. -/
def kindOf? (c : Char) : Option Kind :=
  if IsLetter c ∨ c = '_' then some .word
  else if IsDigit c ∨ c = '+' ∨ c = '-' then some .integer
  else if c = '"' then some .string
  else if c ∈ ['(', ')', '!', '&', '|', '='] then some .symbol
  else none

theorem kindOf?_word (h : IsLetter c ∨ c = '_') : kindOf? c = some .word :=
  if_pos h

theorem kindOf?_integer (h : IsDigit c ∨ c = '+' ∨ c = '-') : kindOf? c = some .integer := by
  have hword : ¬ (IsLetter c ∨ c = '_') := by
    rintro (hletter | rfl)
    · rcases h with hdigit | rfl | rfl
      · rcases hletter with hsmall | hcapital
        · exact absurd (Char.le_trans hsmall.1 hdigit.2) (by decide)
        · exact absurd (Char.le_trans hcapital.1 hdigit.2) (by decide)
      · exact absurd hletter (by decide)
      · exact absurd hletter (by decide)
    · exact absurd h (by decide)
  rw [kindOf?, if_neg hword, if_pos h]

theorem exists_first_of_mem_symbols {symbol : String} (h : symbol ∈ symbols) :
    ∃ c tail, symbol.toList = c :: tail ∧ kindOf? c = some .symbol := by
  simp only [symbols, List.mem_cons, List.not_mem_nil, or_false] at h
  rcases h with rfl | rfl | rfl | rfl | rfl | rfl <;> exact ⟨_, _, rfl, by decide⟩

theorem Token.exists_first (h : Token kind token rest) :
    ∃ c tail, token = c :: tail ∧ kindOf? c = some kind := by
  cases h with
  | symbol hsymbol => exact exists_first_of_mem_symbols hsymbol
  | word hword =>
      obtain ⟨c, tail, rfl, hstart, -⟩ := hword
      exact ⟨c, tail, rfl, kindOf?_word hstart⟩
  | integer i hdigits =>
      obtain ⟨c, tail, rfl, hfirst⟩ := hdigits.exists_first
      exact ⟨c, tail, rfl, kindOf?_integer hfirst⟩
  | string => exact ⟨'"', _, rfl, by decide⟩

end Kinds

theorem isWord_of_letters {word : List Char} (hne : word ≠ []) (h : ∀ c ∈ word, IsLetter c) :
    IsWord word := by
  obtain ⟨c, tail, rfl⟩ := List.exists_cons_of_ne_nil hne
  rw [List.forall_mem_cons] at h
  exact ⟨c, tail, rfl, .inl h.1, fun d hd => .inl (h.2 d hd)⟩

namespace SameToken

variable {text text' rest : List Char}

theorem symm (h : SameToken text text') : SameToken text' text := by
  obtain ⟨kind, token, rest, rest', htoken, htoken', htext, htext'⟩ := h
  exact ⟨kind, token, rest', rest, htoken', htoken, htext', htext⟩

theorem exists_first (h : SameToken text text') :
    ∃ c tail tail', text = c :: tail ∧ text' = c :: tail' ∧ c ∉ blanks := by
  obtain ⟨kind, token, rest, rest', htoken, -, rfl, rfl⟩ := h
  obtain ⟨c, tail, rfl, hkind⟩ := htoken.exists_first
  have hblanks : ∀ c ∈ blanks, kindOf? c = none := forall_mem_of_all (by decide)
  refine ⟨c, tail ++ rest, tail ++ rest', rfl, rfl, fun hblank => ?_⟩
  cases hkind.symm.trans (hblanks c hblank)

theorem head? (h : SameToken text text') : text'.head? = text.head? := by
  obtain ⟨c, tail, tail', rfl, rfl, -⟩ := h.exists_first
  rfl

theorem stops (h : SameToken text text') (hstops : Stops text) : Stops text' := by
  rwa [Stops, h.head?]

/-- The first character tells which kind of token it is that the texts begin with. -/
theorem exists_token {c : Char} {tail : List Char} {kind : Kind} (h : SameToken text text')
    (htext : text = c :: tail) (hkind : kindOf? c = some kind) :
    ∃ token rest rest', Token kind token rest ∧ Token kind token rest' ∧
      text = token ++ rest ∧ text' = token ++ rest' := by
  obtain ⟨kind', token, rest, rest', htoken, htoken', htext, rfl⟩ := h
  obtain ⟨d, tail', rfl, hkind'⟩ := htoken.exists_first
  subst htext
  cases htext
  cases hkind.symm.trans hkind'
  exact ⟨_, rest, rest', htoken, htoken', rfl, rfl⟩

/-- No symbol is the beginning of another one. -/
theorem exists_symbol {symbol : String} (h : SameToken (symbol.toList ++ rest) text')
    (hsymbol : symbol ∈ symbols) : ∃ rest', text' = symbol.toList ++ rest' := by
  have hunique : ∀ s ∈ symbols, ∀ s' ∈ symbols, s.toList.head? = s'.toList.head? → s = s' := by
    decide
  obtain ⟨c, tail, hfirst, hkind⟩ := exists_first_of_mem_symbols hsymbol
  obtain ⟨token, _, rest', htoken, -, htext, rfl⟩ := h.exists_token (by rw [hfirst]; rfl) hkind
  cases htoken with
  | @symbol symbol' _ hsymbol' =>
      obtain ⟨c', tail', hfirst', -⟩ := exists_first_of_mem_symbols hsymbol'
      rw [hfirst, hfirst'] at htext
      obtain rfl := (List.cons.inj htext).1
      obtain rfl := hunique _ hsymbol _ hsymbol' (by rw [hfirst, hfirst']; rfl)
      exact ⟨rest', rfl⟩

/-- A word that does not run on is the whole token. -/
theorem exists_word {word : List Char} (h : SameToken (word ++ rest) text') (hword : IsWord word)
    (hrest : Stops rest) : ∃ rest', text' = word ++ rest' ∧ Stops rest' := by
  have hall := hword.isNameChar
  obtain ⟨c, tail, rfl, hstart, -⟩ := hword
  obtain ⟨token, _, rest', htoken, htoken', htext, rfl⟩ := h.exists_token rfl (kindOf?_word hstart)
  cases htoken with
  | word hword hstops =>
      obtain rfl := run_unique htext hall hrest hword.isNameChar hstops
      cases htoken' with
      | word _ hstops' => exact ⟨rest', rfl, hstops'⟩

/-- Where one text begins with a literal, so does the other, even if it need not be the same. -/
theorem exists_read? {value : Value} (h : SameToken text text')
    (hread : Literal.read? text = some (value, rest)) :
    ∃ value' rest', Literal.read? text' = some (value', rest') := by
  have hword : ∀ word : String, IsWord word.toList → Word word text rest →
      ∃ rest', Word word text' rest' := by
    rintro word hword ⟨rfl, hrest⟩
    obtain ⟨rest', rfl, hrest'⟩ := h.exists_word hword hrest
    exact ⟨rest', rfl, hrest'⟩
  obtain ⟨hliteral, -⟩ := literal_of_read? hread
  cases hliteral with
  | string =>
      have hkind : kindOf? '"' = some .string := by decide
      obtain ⟨_, _, rest', htoken, -, -, rfl⟩ := h.exists_token rfl hkind
      cases htoken with
      | string hbody =>
          have hliteral := @Literal.string _ _ rest' hbody
          exact ⟨_, rest', by simpa using read?_of_literal hliteral (.inl ⟨'"', rfl, .inl rfl⟩)⟩
  | true htrue =>
      obtain ⟨rest', htrue⟩ := hword "true" (isWord_of_letters (by decide)
        (forall_mem_of_all (by decide))) htrue
      exact ⟨_, rest', read?_of_literal (.true htrue) (.inr htrue.2.endsDigits)⟩
  | false hfalse =>
      obtain ⟨rest', hfalse⟩ := hword "false" (isWord_of_letters (by decide)
        (forall_mem_of_all (by decide))) hfalse
      exact ⟨_, rest', read?_of_literal (.false hfalse) (.inr hfalse.2.endsDigits)⟩
  | @integer digits _ i hdigits =>
      obtain ⟨c, tail, rfl, hfirst⟩ := hdigits.exists_first
      obtain ⟨_, _, rest', -, htoken', -, rfl⟩ := h.exists_token rfl (kindOf?_integer hfirst)
      cases htoken' with
      | integer i' hdigits' hends =>
          exact ⟨_, rest', read?_of_literal (.integer i' hdigits') hends.longest⟩

end SameToken

end Grammar

end RecordRules
