import RecordRules.Expr.Parse
import RecordRules.Proofs.Grammar.Chains
import RecordRules.Proofs.Grammar.Literals

/-!
Reading decides the grammar: a text is read as an expression exactly if it derives as a rule of
it.  What is read derives, by induction on the levels of nesting; what derives is read, by
induction on the derivation, where what follows a phrase does not continue it.
-/

namespace RecordRules

namespace Grammar

/-- The reader of phrases of one kind, with `n` levels of nesting inside. -/
def Symbol.reader (n : Nat) : Symbol → Reader Failure Expr
  | .disjunction => Expr.expression (Expr.operand (n + 1))
  | .conjunction => Expr.chain (Expr.operand (n + 1)) .and .and
  | .unary => Expr.operand (n + 1)
  | .primary => ⟨Expr.readPrimary (Expr.operand n), Expr.length_of_readPrimary⟩

section Soundness

variable {n : Nat} {text rest : List Char} {e : Expr}

theorem repeats_of_more {op : Operator} {symbol : Symbol} {operand : Reader Failure Expr}
    (hoperand : ∀ {text e rest}, operand.read text = .ok (e, rest) →
      Derives symbol n text e rest)
    {found all : List Expr} (h : operand.more op.separator found text = .ok (all, rest)) :
    ∃ es, all = found.reverse ++ es ∧ Repeats op symbol n text es rest := by
  fun_induction operand.more op.separator found text with
  | case1 found text hsep =>
      cases h
      exact ⟨[], (List.append_nil _).symm, .none _⟩
  | case2 => cases h
  | case3 found text behind hsep e mid hread ih =>
      obtain ⟨es, rfl, hes⟩ := ih h
      obtain ⟨sign, hblanks, hsign⟩ := (separator_eq_some_iff op text behind).1 hsep
      exact ⟨e :: es, by simp, .more hblanks hsign (hoperand hread) hes⟩

theorem derives_of_readLeaf (h : Expr.readLeaf text = .ok (e, rest)) :
    Derives .primary n text e rest := by
  unfold Expr.readLeaf at h
  split at h
  · cases h
  · next field mid hname =>
      rw [← String.toList_ofList (l := field), name?_eq_some_iff] at hname
      split at h
      · cases h
        exact .flag hname
      · next behind heq =>
          have heq := Lexeme.after?_eq_some_iff.1 heq
          split at h
          · cases h
          · next value rest' hvalue =>
              cases h
              refine .comparison hname ?_ (blanks_skipBlank behind)
                (literal_of_read? hvalue).1
              simpa [heq] using blanks_skipBlank mid

theorem derives_of_readGroup {inside : Reader Failure Expr}
    (hinside : ∀ {text e rest}, inside.read text = .ok (e, rest) →
      Derives .disjunction n text e rest)
    (h : Expr.readGroup inside text = .ok (e, rest)) :
    Derives .primary (n + 1) ('(' :: text) e rest := by
  unfold Expr.readGroup at h
  split at h
  · cases h
  · next e' mid hread =>
      split at h
      · cases h
      · next hclosing =>
          cases h
          have hclosing := Lexeme.after?_eq_some_iff.1 hclosing
          refine .group (hinside hread) ?_
          simpa [hclosing] using blanks_skipBlank mid

theorem derives_of_readChain (settling : Bool) {operand : Reader Failure Expr}
    (hoperand : ∀ {text e rest}, operand.read text = .ok (e, rest) →
      Derives (.operandOf settling) n text e rest)
    (h : (Expr.chain operand (.connecting settling) (Expr.connective settling)).read text =
      .ok (e, rest)) :
    Derives (.chainOf settling) n text e rest := by
  obtain ⟨first, mid, others, hfirst, hothers, hbalanced⟩ :=
    (read_chain_eq_ok_iff _ _ _ _ _ _).1 h
  obtain ⟨es, rfl, hes⟩ := repeats_of_more hoperand hothers
  exact .chain settling (hoperand hfirst) hes hbalanced

theorem derives_of_readExpression {operand : Reader Failure Expr}
    (hunary : ∀ {text e rest}, operand.read text = .ok (e, rest) → Derives .unary n text e rest)
    (h : (Expr.expression operand).read text = .ok (e, rest)) :
    Derives .disjunction n text e rest :=
  derives_of_readChain true (derives_of_readChain false hunary) h

/-- A group takes one level of nesting, so without levels there is none. -/
theorem exists_level_of_readGroup
    (h : Expr.readGroup (Expr.expression (Expr.operand n)) text = .ok (e, rest)) :
    ∃ m, n = m + 1 := by
  cases n with
  | succ m => exact ⟨m, rfl⟩
  | zero =>
      unfold Expr.readGroup at h
      split at h
      · cases h
      · next hread =>
          obtain ⟨_, _, _, hfirst, -⟩ := (read_chain_eq_ok_iff _ _ _ _ _ _).1 hread
          obtain ⟨_, _, _, hfirst, -⟩ := (read_chain_eq_ok_iff _ _ _ _ _ _).1 hfirst
          cases hfirst

theorem derives_of_readPrimary
    (hdeeper : ∀ {m text e rest}, n = m + 1 → (Expr.operand n).read text = .ok (e, rest) →
      Derives .unary m text e rest)
    (h : Expr.readPrimary (Expr.operand n) text = .ok (e, rest)) :
    Derives .primary n text e rest := by
  unfold Expr.readPrimary at h
  simp only at h
  split at h
  · cases h
  · next found hfound =>
      cases h
      split at hfound
      · next inside hopen =>
          obtain rfl := Lexeme.after?_eq_some_iff.1 hopen
          obtain ⟨m, rfl⟩ := exists_level_of_readGroup hfound
          exact derives_of_readGroup (derives_of_readExpression (hdeeper rfl)) hfound
      · exact derives_of_readLeaf hfound

/-- An operand is a negation of an operand with one level less, or no negation stands in front
of a primary. -/
theorem read_operand_eq_ok_iff :
    (Expr.operand (n + 1)).read text = .ok (e, rest) ↔
      (∃ behind inner, Sign .not (Lexeme.skipBlank text) behind ∧
        (Expr.operand n).read behind = .ok (inner, rest) ∧ e = .not inner) ∨
      ((∀ behind, ¬ Sign .not (Lexeme.skipBlank text) behind) ∧
        Expr.readPrimary (Expr.operand n) (Lexeme.skipBlank text) = .ok (e, rest)) := by
  change Expr.readOperand (Expr.operand n) text = .ok (e, rest) ↔ _
  unfold Expr.readOperand
  cases hsign : Operator.not.after? (Lexeme.skipBlank text) with
  | some behind =>
      have hnot : Sign .not (Lexeme.skipBlank text) behind := (after?_eq_some_iff _ _ _).1 hsign
      dsimp only
      constructor
      · intro h
        split at h
        · cases h
        · next inner rest' hread =>
            cases h
            exact .inl ⟨behind, inner, hnot, hread, rfl⟩
      · rintro (⟨behind', inner, hsign', hread, rfl⟩ | ⟨hfree, -⟩)
        · rw [← after?_eq_some_iff, hsign] at hsign'
          cases hsign'
          simp only [hread]
        · exact absurd hnot (hfree behind)
  | none =>
      have hfree : ∀ behind, ¬ Sign .not (Lexeme.skipBlank text) behind := by
        intro behind hnot
        rw [← after?_eq_some_iff, hsign] at hnot
        cases hnot
      constructor
      · intro h
        exact .inr ⟨hfree, h⟩
      · rintro (⟨behind, -, hnot, -⟩ | ⟨-, h⟩)
        · exact absurd hnot (hfree behind)
        · exact h

theorem derives_of_readOperand (h : (Expr.operand (n + 1)).read text = .ok (e, rest)) :
    Derives .unary n text e rest := by
  induction n generalizing text e rest with
  | zero =>
      rcases read_operand_eq_ok_iff.1 h with ⟨_, _, _, hread, _⟩ | ⟨-, hprimary⟩
      · cases hread
      · exact .operand (blanks_skipBlank text) (derives_of_readPrimary nofun hprimary)
  | succ m ih =>
      rcases read_operand_eq_ok_iff.1 h with ⟨behind, inner, hsign, hread, rfl⟩ | ⟨-, hprimary⟩
      · exact .negation (blanks_skipBlank text) hsign (ih hread)
      · refine .operand (blanks_skipBlank text) (derives_of_readPrimary ?_ hprimary)
        rintro _ _ _ _ ⟨⟩ hread
        exact ih hread

end Soundness

section Completeness

/-- The first characters, behind blanks, of what may follow a phrase. -/
def Symbol.followers : Symbol → List Char
  | .disjunction => [')']
  | .conjunction => ')' :: firsts .or
  | .unary => ')' :: (firsts .or ++ firsts .and)
  | .primary => ')' :: (firsts .or ++ firsts .and)

/-- What follows a phrase does not continue it. -/
def Follows (symbol : Symbol) (rest : List Char) : Prop :=
  ∀ c ∈ (Lexeme.skipBlank rest).head?, c ∈ symbol.followers

variable {n : Nat} {symbol : Symbol} {op : Operator} {text rest : List Char}

theorem Follows.mono {symbol' : Symbol} (h : Follows symbol rest)
    (hsub : symbol.followers ⊆ symbol'.followers) : Follows symbol' rest := by
  intro c hc
  exact hsub (h c hc)

theorem follows_of_sign {sign behind : List Char} (hblanks : Blanks text sign)
    (hsign : Sign op sign behind) (hop : firsts op ⊆ symbol.followers) :
    Follows symbol text := by
  obtain ⟨c, hc, tail, rfl⟩ := hsign.exists_first
  intro d hd
  rw [hblanks.skipBlank_cons (not_mem_blanks_of_mem_firsts hc)] at hd
  cases hd
  exact hop hc

theorem follows_of_closing {tail : List Char} (hblanks : Blanks rest (')' :: tail)) :
    Follows symbol rest := by
  intro c hc
  rw [hblanks.skipBlank_cons (by decide)] at hc
  cases hc
  cases symbol <;> exact List.mem_cons_self

theorem follows_of_end (hblanks : Blanks rest []) : Follows symbol rest := by
  intro c hc
  rw [(blanks_nil_iff rest).1 hblanks] at hc
  cases hc

/-- No separator stands in front of what cannot begin one. -/
theorem Follows.separator_eq_none (h : Follows symbol rest)
    (hop : ∀ c ∈ symbol.followers, c ∉ firsts op) : op.separator.after? rest = none := by
  cases hsep : op.separator.after? rest with
  | none => rfl
  | some behind =>
      obtain ⟨sign, hblanks, hsign⟩ := (separator_eq_some_iff op rest behind).1 hsep
      obtain ⟨c, hc, tail, rfl⟩ := hsign.exists_first
      have hhead := hblanks.skipBlank_cons (not_mem_blanks_of_mem_firsts hc)
      exact absurd hc (hop c (h c (by simp [hhead])))

theorem Follows.after?_eq_none (h : Follows symbol rest) :
    Lexeme.after? ['=', '='] (Lexeme.skipBlank rest) = none := by
  cases hafter : Lexeme.after? ['=', '='] (Lexeme.skipBlank rest) with
  | none => rfl
  | some behind =>
      have hmem := h '=' (by simp [Lexeme.after?_eq_some_iff.1 hafter])
      cases symbol <;> exact absurd hmem (by decide)

theorem Follows.endsDigits (h : Follows symbol rest) : EndsDigits rest := by
  have hblanks : ∀ c ∈ blanks, c.isDigit = false := forall_mem_of_all (by decide)
  have hfollowers : ∀ c ∈ symbol.followers, c.isDigit = false := by
    cases symbol <;> exact forall_mem_of_all (by decide)
  cases rest with
  | nil => rfl
  | cons c rest =>
      rw [EndsDigits, List.head?_cons, Option.any_some]
      by_cases hblank : c ∈ blanks
      · exact hblanks c hblank
      · exact hfollowers c (h c (by simp [skipBlank_cons rest hblank]))

/-- A primary begins with its parenthesis or its name, and not with a negation. -/
theorem Derives.begins {e : Expr} (h : Derives .primary n text e rest) :
    (∃ c tail, text = c :: tail ∧ c ∉ blanks) ∧ ∀ behind, ¬ Sign .not text behind := by
  have hname : ∀ {field mid}, Name text field mid →
      (∃ c tail, text = c :: tail ∧ c ∉ blanks) ∧ ∀ behind, ¬ Sign .not text behind := by
    intro field mid hname
    refine ⟨?_, hname.not_sign .not⟩
    obtain ⟨c, tail, rfl, hstart⟩ := hname.exists_first
    have hblanks : ∀ c ∈ blanks, ¬ (IsLetter c ∨ c = '_') := forall_mem_of_all (by decide)
    exact ⟨c, tail, rfl, fun hblank => hblanks c hblank hstart⟩
  cases h with
  | @group _ inside =>
      refine ⟨⟨'(', inside, rfl, by decide⟩, fun behind hsign => ?_⟩
      obtain ⟨c, hc, tail, heq⟩ := hsign.exists_first
      cases heq
      exact absurd hc (by decide)
  | comparison h | flag h => exact hname h

theorem readPrimary_group {deeper : Reader Failure Expr} {mid : List Char} {e : Expr}
    (hinside : (Expr.expression deeper).read text = .ok (e, mid))
    (hclosing : Blanks mid (')' :: rest)) :
    Expr.readPrimary deeper ('(' :: text) = .ok (e, rest) := by
  have hopen : Lexeme.after? ['('] ('(' :: text) = some text :=
    Lexeme.after?_eq_some_iff.2 rfl
  have hclose : Lexeme.after? [')'] (Lexeme.skipBlank mid) = some rest :=
    Lexeme.after?_eq_some_iff.2 (hclosing.skipBlank_cons (by decide))
  simp only [Expr.readPrimary, hopen, Expr.readGroup, hinside, hclose]

theorem readPrimary_leaf {deeper : Reader Failure Expr} {e : Expr} {field : String}
    {mid : List Char} (hname : Name text field mid)
    (hleaf : Expr.readLeaf text = .ok (e, rest)) :
    Expr.readPrimary deeper text = .ok (e, rest) := by
  have hopen : Lexeme.after? ['('] text = none := by
    obtain ⟨c, tail, rfl, hstart⟩ := hname.exists_first
    cases hafter : Lexeme.after? ['('] (c :: tail) with
    | none => rfl
    | some behind =>
        cases Lexeme.after?_eq_some_iff.1 hafter
        exact absurd hstart (by decide)
  simp only [Expr.readPrimary, hopen, hleaf]

theorem readLeaf_comparison {field : String} {value : Value} {mid behind literal : List Char}
    (hname : Name text field mid) (heq : Blanks mid ('=' :: '=' :: behind))
    (hblanks : Blanks behind literal) (hliteral : Literal literal value rest)
    (hrest : EndsDigits rest) : Expr.readLeaf text = .ok (.eq field value, rest) := by
  have hafter : Lexeme.after? ['=', '='] (Lexeme.skipBlank mid) = some behind :=
    Lexeme.after?_eq_some_iff.2 (heq.skipBlank_cons (by decide))
  have hread := read?_of_literal hliteral (.inr hrest)
  obtain ⟨c, tail, rfl, hc⟩ := hliteral.exists_first
  simp only [Expr.readLeaf, (name?_eq_some_iff _ _ _).2 hname, hafter,
    hblanks.skipBlank_cons hc, hread, String.ofList_toList]

theorem readLeaf_flag {field : String} (hname : Name text field rest)
    (hrest : Follows symbol rest) : Expr.readLeaf text = .ok (.flag field, rest) := by
  simp only [Expr.readLeaf, (name?_eq_some_iff _ _ _).2 hname, hrest.after?_eq_none,
    String.ofList_toList]

mutual

/-- What derives is read, where what follows does not continue it. -/
theorem read_of_derives {n : Nat} {symbol : Symbol} {text rest : List Char} {e : Expr} :
    Derives symbol n text e rest → Follows symbol rest →
      (symbol.reader n).read text = .ok (e, rest)
  | .disjunction hfirst hothers hbalanced, hrest
  | .conjunction hfirst hothers hbalanced, hrest => by
      obtain ⟨hmid, hmore⟩ := more_of_repeats hothers (by decide) (hrest.mono (by decide))
        (hrest.separator_eq_none (forall_mem_of_all (by decide)))
      exact (read_chain_eq_ok_iff _ _ _ _ _ _).2
        ⟨_, _, _, read_of_derives hfirst hmid, hmore [], hbalanced⟩
  | .negation hblanks hsign hinner, hrest => by
      have hread := read_of_derives hinner hrest
      refine read_operand_eq_ok_iff.2 (.inl ⟨_, _, ?_, hread, rfl⟩)
      rwa [hblanks.skipBlank_of_sign hsign]
  | .operand hblanks hprimary, hrest => by
      have hread := read_of_derives hprimary (hrest.mono (by decide))
      obtain ⟨⟨c, tail, rfl, hc⟩, hfree⟩ := hprimary.begins
      refine read_operand_eq_ok_iff.2 (.inr ?_)
      rw [hblanks.skipBlank_cons hc]
      exact ⟨hfree, hread⟩
  | .group hinside hclosing, _ =>
      readPrimary_group (read_of_derives hinside (follows_of_closing hclosing)) hclosing
  | .comparison hname heq hblanks hliteral, hrest =>
      readPrimary_leaf hname (readLeaf_comparison hname heq hblanks hliteral hrest.endsDigits)
  | .flag hname, hrest => readPrimary_leaf hname (readLeaf_flag hname hrest)

/-- Repeated operands are read one after the other, up to where no separator follows. -/
theorem more_of_repeats {n : Nat} {op : Operator} {symbol : Symbol} {text rest : List Char}
    {es : List Expr} :
    Repeats op symbol n text es rest → firsts op ⊆ symbol.followers → Follows symbol rest →
      op.separator.after? rest = none →
        Follows symbol text ∧ ∀ found, (symbol.reader n).more op.separator found text =
          .ok (found.reverse ++ es, rest)
  | .none _, _, hrest, hnone => by
      refine ⟨hrest, fun found => ?_⟩
      rw [Reader.more]
      split
      · simp
      · next hsep => cases hnone.symm.trans hsep
  | .more hblanks hsign he hes, hop, hrest, hnone => by
      obtain ⟨hmid, hmore⟩ := more_of_repeats hes hop hrest hnone
      refine ⟨follows_of_sign hblanks hsign hop, fun found => ?_⟩
      have hsep := (separator_eq_some_iff _ _ _).2 ⟨_, hblanks, hsign⟩
      have hread := read_of_derives he hmid
      rw [Reader.more]
      split
      · next hnone => cases hnone.symm.trans hsep
      · next hsep' =>
          cases hsep'.symm.trans hsep
          split
          · next hfail => cases hfail.symm.trans hread
          · next hread' =>
              cases hread'.symm.trans hread
              simp [hmore]

end

end Completeness

theorem read_eq_ok_iff (text : List Char) (e : Expr) :
    Expr.read text = .ok e ↔ IsRule nestingLimit text e := by
  unfold Expr.read
  constructor
  · intro h
    split at h
    · cases h
    · next e' rest hread =>
        split at h
        · next hend =>
            cases h
            exact ⟨rest, derives_of_readExpression derives_of_readOperand hread,
              (blanks_nil_iff rest).2 hend⟩
        · cases h
  · rintro ⟨rest, hderives, hblanks⟩
    have hread : (Expr.expression (Expr.operand (nestingLimit + 1))).read text = .ok (e, rest) :=
      read_of_derives hderives (follows_of_end hblanks)
    simp only [hread, (blanks_nil_iff rest).1 hblanks]

theorem parse_eq_ok_iff_read (text : String) (e : Expr) :
    Expr.parse text = .ok e ↔ Expr.read text.toList = .ok e := by
  rw [Expr.parse]
  cases Expr.read text.toList with
  | error failure => exact ⟨nofun, nofun⟩
  | ok found =>
      constructor
      · rintro ⟨⟩
        rfl
      · rintro ⟨⟩
        rfl

/-- A text is read as an expression exactly if it derives as a rule of it, with at most 128
parentheses and negations around a leaf. -/
theorem parse_eq_ok_iff_isRule (text : String) (e : Expr) :
    Expr.parse text = .ok e ↔ IsRule 128 text.toList e :=
  (parse_eq_ok_iff_read text e).trans (read_eq_ok_iff text.toList e)

end Grammar

end RecordRules
