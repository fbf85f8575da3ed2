import RecordRules.Proofs.Grammar.Rendering

/-!
Failures travel outwards.  Where no level is left for an operand, every phrase around it fails
for that reason, whatever stands behind; so an expression that is written with too many levels
is refused for its nesting.
-/

namespace RecordRules

namespace Grammar

section Failures

variable {operand : Reader Failure Expr} {op : Operator} {join : Expr → Expr → Expr}
variable {n : Nat} {text mid behind rest : List Char} {e : Expr} {failure : Failure}

/-- A chain fails as its first operand does. -/
theorem read_chain_of_first (h : operand.read text = .error failure) :
    (Expr.chain operand op join).read text = .error failure :=
  (read_chain_eq_error_iff _ _ _ _ _).2 (.inl h)

/-- A chain fails as its second operand does: the operator in front of it commits. -/
theorem read_chain_of_second (hfirst : operand.read text = .ok (e, mid))
    (hsep : op.separator.after? mid = some behind) (h : operand.read behind = .error failure) :
    (Expr.chain operand op join).read text = .error failure := by
  refine (read_chain_eq_error_iff _ _ _ _ _).2 (.inr ⟨e, mid, hfirst, ?_⟩)
  rw [Reader.more]
  split
  · next hnone => cases hnone.symm.trans hsep
  · next hsome =>
      cases hsome.symm.trans hsep
      split
      · next hfail =>
          cases hfail.symm.trans h
          rfl
      · next hread => cases hread.symm.trans h

/-- An expression fails as its first operand does. -/
theorem read_expression_of_first (h : operand.read text = .error failure) :
    (Expr.expression operand).read text = .error failure :=
  read_chain_of_first (read_chain_of_first h)

/-- A negation fails as its operand does. -/
theorem read_operand_of_negation {sign : List Char} (hblanks : Blanks text sign)
    (hsign : Sign .not sign behind) (h : (Expr.operand n).read behind = .error failure) :
    (Expr.operand (n + 1)).read text = .error failure := by
  change Expr.readOperand (Expr.operand n) text = .error failure
  rw [Expr.readOperand, hblanks.skipBlank_of_sign hsign]
  simp only [(after?_eq_some_iff _ _ _).2 hsign, h]

/-- A group fails as its inside does. -/
theorem read_operand_of_group {inside : List Char} (hblanks : Blanks text ('(' :: inside))
    (h : (Expr.expression (Expr.operand n)).read inside = .error failure) :
    (Expr.operand (n + 1)).read text = .error failure.within := by
  have hopen : Lexeme.after? ['('] ('(' :: inside) = some inside :=
    Lexeme.after?_eq_some_iff.2 rfl
  have hnot : Operator.not.after? ('(' :: inside) = none := rfl
  change Expr.readOperand (Expr.operand n) text = .error failure.within
  rw [Expr.readOperand, hblanks.skipBlank_cons (by decide)]
  simp only [hnot, Expr.readPrimary, hopen, Expr.readGroup, h]

/-- Blanks in front of an operand make no difference. -/
theorem read_operand_of_blanks {before : List Char} (h : Blanks before text) :
    (Expr.operand n).read before = (Expr.operand n).read text := by
  cases n with
  | zero => rfl
  | succ m =>
      change Expr.readOperand _ _ = Expr.readOperand _ _
      rw [Expr.readOperand, Expr.readOperand, h.skipBlank_eq]

end Failures

/-- Where the right operand of a connective has no level left, the whole has none. -/
theorem tooDeep_written (d : Dialect) (settling : Bool) {n : Nat} {text behind : List Char}
    {left : Expr}
    (hleft : Derives .unary n text left ((Operator.connecting settling).between d ++ behind))
    (h : (Expr.operand (n + 1)).read behind = .error .tooDeep) :
    (Expr.expression (Expr.operand (n + 1))).read text = .error .tooDeep := by
  obtain ⟨sign, hblanks, hsign⟩ := exists_sign_between (.connecting settling) d behind
  have hsep := (separator_eq_some_iff _ _ _).2 ⟨sign, hblanks, hsign⟩
  rw [← read_operand_of_blanks (blanks_cons blank_mem behind)] at h
  cases settling with
  | false =>
      have hfirst := read_of_derives hleft (follows_of_sign hblanks hsign (by decide))
      exact read_chain_of_first (read_chain_of_second hfirst hsep h)
  | true =>
      have hfirst := read_of_derives (hleft.operand_of_unary true)
        (follows_of_sign hblanks hsign (by decide))
      exact read_chain_of_second hfirst hsep (read_chain_of_first h)

theorem tooDeep_group {n : Nat} {inside : List Char}
    (h : (Expr.expression (Expr.operand n)).read inside = .error .tooDeep) :
    (Expr.operand (n + 1)).read ('(' :: inside) = .error .tooDeep :=
  read_operand_of_group (.refl _) h

theorem tooDeep_negation (d : Dialect) {n : Nat} {text : List Char}
    (h : (Expr.operand n).read text = .error .tooDeep) :
    (Expr.operand (n + 1)).read (d.negation ++ text) = .error .tooDeep := by
  obtain ⟨behind, hsign, hblanks⟩ := exists_sign_negation d text
  rw [← read_operand_of_blanks hblanks] at h
  exact read_operand_of_negation (.refl _) hsign h

/-- What is written with more levels than there are is refused for its nesting. -/
theorem tooDeep_write (d : Dialect) {e : Expr} (hnames : e.Nameable) {n : Nat}
    (hn : n < e.writtenNesting) (rest : List Char) :
    (Expr.operand (n + 1)).read (e.write d rest) = .error .tooDeep := by
  induction e using Expr.connective_induction generalizing n rest with
  | eq field value | flag field => exact absurd hn (Nat.not_lt_zero n)
  | connective settling left right ihl ihr =>
      rw [Expr.Nameable, Expr.names_connective, List.forall_mem_append] at hnames
      rw [Expr.writtenNesting_connective] at hn
      rw [Expr.write_connective]
      obtain ⟨hl, hr⟩ := hnames
      refine tooDeep_group ?_
      cases n with
      | zero => exact read_expression_of_first rfl
      | succ m =>
          by_cases hdeep : m < left.writtenNesting
          · exact read_expression_of_first (ihl hl hdeep _)
          · have hright := ihr hr (n := m) (by omega) (')' :: rest)
            have hleft := derives_write d hl (Nat.not_lt.1 hdeep)
              (stops_between (.connecting settling) d (right.write d (')' :: rest)))
            exact tooDeep_written d settling hleft hright
  | not operand ih =>
      simp only [Expr.writtenNesting] at hn
      simp only [Expr.write]
      refine tooDeep_negation d ?_
      split at hn
      · next hbinary =>
          rw [if_pos hbinary]
          cases n with
          | zero => rfl
          | succ m => exact ih hnames (by omega) rest
      · next hleaf =>
          rw [if_neg hleaf]
          rcases n with _ | _ | m
          · rfl
          · exact tooDeep_group (read_expression_of_first rfl)
          · exact tooDeep_group (read_expression_of_first (ih hnames (by omega) _))

/-- A text is refused for its nesting where its first operand is. -/
theorem read_tooDeep {text : List Char}
    (h : (Expr.operand (nestingLimit + 1)).read text = .error .tooDeep) :
    Expr.read text = .error .tooDeep := by
  rw [Expr.read, read_expression_of_first h]

end Grammar

end RecordRules
