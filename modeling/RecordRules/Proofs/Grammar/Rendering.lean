import RecordRules.Expr.Render
import RecordRules.Proofs.Grammar.Reading

/-!
What an expression is written as derives as a rule of that expression, in either dialect.  The
levels of nesting that it takes are counted from the expression.
-/

namespace RecordRules

/-- The most parentheses and negations around a leaf of the expression as it is written.  A
negation brings parentheses unless its operand has them. -/
def Expr.writtenNesting : Expr → Nat
  | .eq _ _ => 0
  | .flag _ => 0
  | .and left right => 1 + max left.writtenNesting right.writtenNesting
  | .or left right => 1 + max left.writtenNesting right.writtenNesting
  | .not operand =>
      if operand.isBinary then 1 + operand.writtenNesting else 2 + operand.writtenNesting

theorem Expr.writtenNesting_connective (settling : Bool) (left right : Expr) :
    (connective settling left right).writtenNesting =
      1 + max left.writtenNesting right.writtenNesting := by
  cases settling <;> rfl

theorem Expr.write_connective (settling : Bool) (d : Dialect) (left right : Expr)
    (rest : List Char) : (connective settling left right).write d rest =
      '(' :: left.write d ((Operator.connecting settling).between d ++
        right.write d (')' :: rest)) := by
  cases settling <;> rfl

/-- All fields of the expression can be written as names. -/
def Expr.Nameable (e : Expr) : Prop :=
  ∀ name ∈ e.names, Lexeme.isName name.toList = true

namespace Grammar

/-- The digits of a positive number begin with none that is zero. -/
theorem exists_head?_toDigits {n : Nat} (h : 0 < n) :
    ∃ c ∈ (Nat.toDigits 10 n).head?, c ≠ '0' := by
  induction n using Nat.strongRecOn with
  | ind n ih =>
      by_cases hn : n < 10
      · have hdigit : ∀ m < 10, 0 < m → Nat.digitChar m ≠ '0' := by decide
        rw [Nat.toDigits_of_lt_base hn]
        exact ⟨_, rfl, hdigit n hn h⟩
      · obtain ⟨c, hc, hne⟩ := ih (n / 10) (by omega) (by omega)
        rw [Nat.toDigits_of_base_le (by decide) (by omega)]
        exact ⟨c, by simp [List.head?_append, Option.mem_def.1 hc], hne⟩

theorem positive_toDigits {n : Nat} (h : 0 < n) : Positive (Nat.toDigits 10 n) n := by
  refine ⟨exists_head?_toDigits h, ?_, Nat.ofDigitChars_ten_toDigits.symm⟩
  intro c hc
  exact (isDigit_iff c).1 (Nat.isDigit_of_mem_toDigits (by decide) (by decide) hc)

theorem integer_ofInt (i : Int) : Integer (Literal.ofInt i) i := by
  unfold Literal.ofInt
  split
  · next hneg =>
      have hpos := positive_toDigits (Int.natAbs_pos.2 (Int.ne_of_lt hneg))
      have hminus := Integer.minus hpos
      rwa [Int.ofNat_natAbs_of_nonpos (Int.le_of_lt hneg), Int.neg_neg] at hminus
  · next hnonneg =>
      rcases Int.eq_ofNat_of_zero_le (Int.not_lt.1 hnonneg) with ⟨n, rfl⟩
      cases n with
      | zero => exact .zero
      | succ n => exact .unsigned (positive_toDigits n.succ_pos)

theorem body_escape (content : List Char) : Body (content.flatMap Literal.escape) content := by
  induction content with
  | nil => exact .empty
  | cons c content ih =>
      rw [List.flatMap_cons]
      unfold Literal.escape
      split
      · exact .escape ih
      · exact .escape ih
      · exact .escape ih
      · exact .escape ih
      · next hquote hslash _ _ => exact .plain hquote hslash ih

/-- What a value is written as is a literal of that value. -/
theorem literal_ofValue (value : Value) {rest : List Char} (h : Stops rest) :
    Literal (Literal.ofValue value ++ rest) value rest := by
  cases value with
  | bool b =>
      cases b with
      | true => exact .true ⟨rfl, h⟩
      | false => exact .false ⟨rfl, h⟩
  | int i => exact .integer i (integer_ofInt i.toInt)
  | str s =>
      have hliteral := @Literal.string _ _ rest (body_escape s.toList)
      rw [String.ofList_toList] at hliteral
      simpa [Literal.ofValue] using hliteral

section Phrases

variable {n : Nat} {text rest : List Char} {e : Expr}

theorem stops_cons {c : Char} (rest : List Char) (h : ¬ IsNameChar c) : Stops (c :: rest) := by
  intro d hd
  cases hd
  exact h

theorem blank_mem : ' ' ∈ blanks := by
  decide

theorem blanks_cons {c : Char} (hc : c ∈ blanks) (rest : List Char) : Blanks (c :: rest) rest :=
  ⟨[c], by simpa using hc, rfl⟩

theorem Blanks.refl (text : List Char) : Blanks text text :=
  ⟨[], nofun, rfl⟩

theorem Blanks.trans {text mid rest : List Char} (h : Blanks text mid) (h' : Blanks mid rest) :
    Blanks text rest := by
  obtain ⟨run, hrun, rfl⟩ := h
  obtain ⟨run', hrun', rfl⟩ := h'
  refine ⟨run ++ run', ?_, (List.append_assoc _ _ _).symm⟩
  exact List.forall_mem_append.2 ⟨hrun, hrun'⟩

/-- Blanks in front of a phrase are its own, unless it is a primary. -/
theorem Derives.behind_blanks {symbol : Symbol} {n : Nat} {before text rest : List Char}
    {e : Expr} : Derives symbol n text e rest → symbol ≠ .primary → Blanks before text →
      Derives symbol n before e rest
  | .disjunction hfirst hothers hbalanced, _, hbefore =>
      .disjunction (hfirst.behind_blanks nofun hbefore) hothers hbalanced
  | .conjunction hfirst hothers hbalanced, _, hbefore =>
      .conjunction (hfirst.behind_blanks nofun hbefore) hothers hbalanced
  | .negation hblanks hsign hinner, _, hbefore => .negation (hbefore.trans hblanks) hsign hinner
  | .operand hblanks hprimary, _, hbefore => .operand (hbefore.trans hblanks) hprimary
  | .group _ _, hprimary, _ => absurd rfl hprimary
  | .comparison _ _ _ _, hprimary, _ => absurd rfl hprimary
  | .flag _, hprimary, _ => absurd rfl hprimary

/-- An operand is what a chain of either connective joins. -/
theorem Derives.operand_of_unary (settling : Bool) (h : Derives .unary n text e rest) :
    Derives (.operandOf settling) n text e rest := by
  cases settling with
  | false => exact h
  | true => exact .conjunction h (.none rest) (.one e)

/-- A chain of either connective is a disjunction. -/
theorem Derives.disjunction_of_chain (settling : Bool)
    (h : Derives (.chainOf settling) n text e rest) : Derives .disjunction n text e rest := by
  cases settling with
  | false => exact .disjunction h (.none rest) (.one e)
  | true => exact h

theorem Derives.disjunction_of_unary (h : Derives .unary n text e rest) :
    Derives .disjunction n text e rest :=
  (h.operand_of_unary true).disjunction_of_chain false

theorem balanced_pair (join : Expr → Expr → Expr) (a b : Expr) :
    Balanced join [a, b] (join a b) :=
  @Balanced.halves join [a] [b] a b (.inl rfl) (.one a) (.one b)

/-- A binary operator is written between two blanks, of which the second is left to the operand
behind it. -/
theorem exists_sign_between (op : Operator) (d : Dialect) (text : List Char) :
    ∃ sign, Blanks (op.between d ++ text) sign ∧ Sign op sign (' ' :: text) := by
  have hstops : Stops (' ' :: text) := stops_cons text (by decide)
  cases d with
  | keyword =>
      refine ⟨op.word ++ ' ' :: text, ?_, ?_⟩
      · simpa [Operator.between] using blanks_cons blank_mem (op.word ++ ' ' :: text)
      · rw [sign_iff, Lexeme.afterWord?_eq_some_iff]
        exact .inr (.inl ⟨rfl, (stops_iff _).1 hstops⟩)
  | symbolic =>
      refine ⟨op.symbol ++ ' ' :: text, ?_, ?_⟩
      · simpa [Operator.between] using blanks_cons blank_mem (op.symbol ++ ' ' :: text)
      · rw [sign_iff, Lexeme.after?_eq_some_iff]
        exact .inl rfl

theorem stops_between (op : Operator) (d : Dialect) (text : List Char) :
    Stops (op.between d ++ text) := by
  cases d <;> exact stops_cons _ (by decide)

/-- A negation is written with its operand behind it, perhaps behind a blank. -/
theorem exists_sign_negation (d : Dialect) (text : List Char) :
    ∃ behind, Sign .not (d.negation ++ text) behind ∧ Blanks behind text := by
  cases d with
  | keyword =>
      refine ⟨' ' :: text, ?_, blanks_cons blank_mem text⟩
      exact .word (w := "not") (by decide) ⟨rfl, stops_cons text (by decide)⟩
  | symbolic => exact ⟨text, .punctuation text, .refl text⟩

theorem derives_flag {field : String} (hfield : Identifier field) (hrest : Stops rest) :
    Derives .unary n (field.toList ++ rest) (.flag field) rest :=
  .operand (.refl _) (.flag ⟨hfield, rfl, hrest⟩)

/-- An expression in parentheses is an operand that takes one level more. -/
theorem Derives.parenthesized (h : Derives .disjunction n text e (')' :: rest)) :
    Derives .unary (n + 1) ('(' :: text) e rest :=
  .operand (.refl _) (.group h (.refl _))

section Pairs

variable (d : Dialect) {left right : Expr} {behind : List Char}

/-- Two operands with the operator of a connective between them are a chain of it. -/
theorem derives_pair (settling : Bool)
    (hleft : Derives (.operandOf settling) n text left
      ((Operator.connecting settling).between d ++ behind))
    (hright : Derives (.operandOf settling) n behind right rest) :
    Derives (.chainOf settling) n text (Expr.connective settling left right) rest := by
  have hsymbol : Symbol.operandOf settling ≠ .primary := by cases settling <;> decide
  obtain ⟨sign, hblanks, hsign⟩ := exists_sign_between (.connecting settling) d behind
  have hbehind := hright.behind_blanks hsymbol (blanks_cons blank_mem behind)
  exact .chain settling hleft (.more hblanks hsign hbehind (.none _)) (balanced_pair _ _ _)

/-- The operands of a connective are written in parentheses, with its operator between them. -/
theorem derives_written (settling : Bool)
    (hleft : Derives .unary n text left ((Operator.connecting settling).between d ++ behind))
    (hright : Derives .unary n behind right (')' :: rest)) :
    Derives .unary (n + 1) ('(' :: text) (Expr.connective settling left right) rest := by
  have hpair := derives_pair d settling (hleft.operand_of_unary settling)
    (hright.operand_of_unary settling)
  exact (hpair.disjunction_of_chain settling).parenthesized

end Pairs

theorem derives_negation (d : Dialect) (h : Derives .unary n text e rest) :
    Derives .unary (n + 1) (d.negation ++ text) (.not e) rest := by
  obtain ⟨behind, hsign, hblanks⟩ := exists_sign_negation d text
  exact .negation (.refl _) hsign (h.behind_blanks nofun hblanks)

end Phrases

/-- What is written derives as an operand, where nothing runs on behind it. -/
theorem derives_write (d : Dialect) {e : Expr} (hnames : e.Nameable) {n : Nat}
    (hn : e.writtenNesting ≤ n) {rest : List Char} (hrest : Stops rest) :
    Derives .unary n (e.write d rest) e rest := by
  have hclosing : ∀ rest, Stops (')' :: rest) := fun rest => stops_cons rest (by decide)
  induction e using Expr.connective_induction generalizing n rest with
  | eq field value =>
      have hname := (isName_iff field).1 (hnames field List.mem_cons_self)
      exact .operand (.refl _) (.comparison ⟨hname, rfl, stops_cons _ (by decide)⟩
        (blanks_cons blank_mem _) (blanks_cons blank_mem _) (literal_ofValue value hrest))
  | flag field =>
      have hname := (isName_iff field).1 (hnames field List.mem_cons_self)
      exact derives_flag hname hrest
  | connective settling left right ihl ihr =>
      rw [Expr.Nameable, Expr.names_connective, List.forall_mem_append] at hnames
      rw [Expr.writtenNesting_connective] at hn
      rw [Expr.write_connective]
      obtain ⟨hl, hr⟩ := hnames
      obtain ⟨m, rfl⟩ : ∃ m, n = m + 1 := ⟨n - 1, by omega⟩
      have hright := ihr hr (n := m) (by omega) (hclosing rest)
      exact derives_written d settling (ihl hl (by omega) (stops_between _ d _)) hright
  | not operand ih =>
      simp only [Expr.writtenNesting] at hn
      simp only [Expr.write]
      split at hn
      · next hbinary =>
          obtain ⟨m, rfl⟩ : ∃ m, n = m + 1 := ⟨n - 1, by omega⟩
          rw [if_pos hbinary]
          exact derives_negation d (ih hnames (n := m) (by omega) hrest)
      · next hleaf =>
          obtain ⟨m, rfl⟩ : ∃ m, n = m + 2 := ⟨n - 2, by omega⟩
          rw [if_neg hleaf]
          have hinner := ih hnames (n := m) (by omega) (hclosing rest)
          exact derives_negation d hinner.disjunction_of_unary.parenthesized

end Grammar

end RecordRules
