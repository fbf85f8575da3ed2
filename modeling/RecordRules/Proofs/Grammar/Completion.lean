import RecordRules.Proofs.Grammar.Locality
import RecordRules.Proofs.Grammar.Nesting

/-!
Where reading stops for want of something, something else could have stood.  What is read up to
that place is the beginning of a phrase: a field name, a literal or a parenthesis in that place, and
the parentheses that are still open, make it a whole one.
-/

namespace RecordRules

namespace Grammar

/-- With other characters in the place of `rest` the relation takes the text to their end, whatever
stands behind.  No word runs on into them. -/
def Completable (P : List Char → List Char → Prop) (text rest : List Char) : Prop :=
  ∃ before more, text = before ++ rest ∧ (∀ tail, Stops (more ++ tail)) ∧
    ∀ tail, Stops tail → P (before ++ (more ++ tail)) tail

def Phrase (symbol : Symbol) (n : Nat) (text rest : List Char) : Prop :=
  ∃ e, Derives symbol n text e rest

section Completions

variable {P Q : List Char → List Char → Prop} {text mid rest : List Char}

theorem Completable.mono (h : Completable P text rest)
    (hPQ : ∀ {text rest}, P text rest → Q text rest) : Completable Q text rest := by
  obtain ⟨before, more, htext, hmore, hP⟩ := h
  exact ⟨before, more, htext, hmore, fun tail htail => hPQ (hP tail htail)⟩

theorem completable_here (more : List Char) (hmore : ∀ tail, Stops (more ++ tail))
    (rest : List Char) : Completable (fun text rest => text = more ++ rest) rest rest :=
  ⟨[], more, rfl, hmore, fun _ _ => rfl⟩

/-- What stands before the beginning of a phrase stays as it is when the phrase is completed. -/
theorem Local.completable (h : Local P text mid) (h' : Completable Q mid rest) :
    Completable (fun text rest => ∃ mid, P text mid ∧ Q mid rest) text rest := by
  obtain ⟨run, rfl, hP⟩ := h
  obtain ⟨before, more, rfl, hmore, hQ⟩ := h'
  refine ⟨run ++ before, more, (List.append_assoc _ _ _).symm, hmore, fun tail htail => ?_⟩
  refine ⟨before ++ (more ++ tail), ?_, hQ tail htail⟩
  rw [List.append_assoc]
  exact hP _ (stops_append before fun _ => hmore tail)

/-- What is completed can be closed by a parenthesis. -/
theorem Completable.closed (h : Completable P text rest)
    (hPQ : ∀ {text rest}, P text (')' :: rest) → Q text rest) : Completable Q text rest := by
  obtain ⟨before, more, htext, hmore, hP⟩ := h
  refine ⟨before, more ++ [')'], htext, fun tail => ?_, fun tail _ => ?_⟩
  · rw [List.append_assoc]
    exact hmore _
  · rw [List.append_assoc]
    exact hPQ (hP _ (stops_cons tail (by decide)))

end Completions

section Failures

variable {n : Nat} {text rest : List Char} {wanted : List Wanted}

theorem completable_of_readLeaf (h : Expr.readLeaf text = .error (.unexpected rest wanted)) :
    Completable (Phrase .unary n) text rest := by
  unfold Expr.readLeaf at h
  split at h
  · cases h
    have hfield : Identifier "a" := (isName_iff "a").1 (by decide)
    refine ⟨[], [' ', 'a'], rfl, fun tail => stops_cons _ (by decide), fun tail htail => ?_⟩
    exact ⟨_, (derives_flag hfield htail).behind_blanks nofun (blanks_cons blank_mem _)⟩
  · next field mid hname =>
      rw [← String.toList_ofList (l := field), name?_eq_some_iff] at hname
      split at h
      · cases h
      · next behind heq =>
          split at h
          · cases h
            have heq : Blanks mid (['=', '='] ++ behind) := by
              simpa [Lexeme.after?_eq_some_iff.1 heq] using blanks_skipBlank mid
            have hliteral := completable_here ['"', '"']
              (fun tail => stops_cons _ (by decide)) (Lexeme.skipBlank behind)
            have hvalue := (blanks_skipBlank behind).isLocal.completable hliteral
            have hequals := (Blanks.isLocal_append _ heq).completable hvalue
            apply (hname.isLocal.completable hequals).mono
            rintro text rest ⟨mid, hname, behind, heq, literal, hblanks, rfl⟩
            exact ⟨_, .operand (.refl _) (.comparison hname heq hblanks (.string .empty))⟩
          · cases h

theorem completable_of_readGroup {inside : Reader Failure Expr}
    (hread : ∀ {text e rest}, inside.read text = .ok (e, rest) →
      Derives .disjunction n text e rest)
    (hstuck : ∀ {text rest wanted}, inside.read text = .error (.unexpected rest wanted) →
      Completable (Phrase .disjunction n) text rest)
    (h : Expr.readGroup inside text = .error (.unexpected rest wanted)) :
    Completable (Phrase .unary (n + 1)) ('(' :: text) rest := by
  have hopen := local_append ['('] text
  unfold Expr.readGroup at h
  split at h
  · next failure hfail =>
      cases h
      apply (hopen.completable (hstuck hfail)).closed
      rintro text rest ⟨inside, rfl, e, hinside⟩
      exact ⟨e, hinside.parenthesized⟩
  · next e mid hinside =>
      split at h
      · cases h
        have hclosing := completable_here [')']
          (fun tail => stops_cons _ (by decide)) (Lexeme.skipBlank mid)
        have hend := (blanks_skipBlank mid).isLocal.completable hclosing
        apply (hopen.completable ((hread hinside).isLocal.completable hend)).mono
        rintro text rest ⟨inside, rfl, mid, hinside, closing, hblanks, rfl⟩
        exact ⟨e, .operand (.refl _) (.group hinside hblanks)⟩
      · cases h

/-- Where a further operand is not found behind an operator, the chain can be completed there. -/
theorem completable_of_more {op : Operator} {symbol : Symbol} {operand : Reader Failure Expr}
    (hread : ∀ {text e rest}, operand.read text = .ok (e, rest) → Derives symbol n text e rest)
    (hstuck : ∀ {text rest wanted}, operand.read text = .error (.unexpected rest wanted) →
      Completable (Phrase symbol n) text rest)
    {found : List Expr}
    (h : operand.more op.separator found text = .error (.unexpected rest wanted)) :
    Completable (fun text rest => ∃ es, Repeats op symbol n text es rest) text rest := by
  fun_induction operand.more op.separator found text with
  | case1 => cases h
  | case2 found text behind hsep failure hfail =>
      cases h
      obtain ⟨sign, hblanks, hsign⟩ := (separator_eq_some_iff op text behind).1 hsep
      apply (hblanks.isLocal.completable (hsign.isLocal.completable (hstuck hfail))).mono
      rintro text rest ⟨sign, hblanks, behind, hsign, e, hoperand⟩
      exact ⟨[e], .more hblanks hsign hoperand (.none rest)⟩
  | case3 found text behind hsep e mid hoperand ih =>
      obtain ⟨sign, hblanks, hsign⟩ := (separator_eq_some_iff op text behind).1 hsep
      have hothers := (hread hoperand).isLocal.completable (ih h)
      apply (hblanks.isLocal.completable (hsign.isLocal.completable hothers)).mono
      rintro text rest ⟨sign, hblanks, behind, hsign, mid, hoperand, es, hes⟩
      exact ⟨e :: es, .more hblanks hsign hoperand hes⟩

section Chains

variable {operand : Reader Failure Expr}

theorem completable_of_readChain (settling : Bool)
    (hread : ∀ {text e rest}, operand.read text = .ok (e, rest) →
      Derives (.operandOf settling) n text e rest)
    (hstuck : ∀ {text rest wanted}, operand.read text = .error (.unexpected rest wanted) →
      Completable (Phrase (.operandOf settling) n) text rest)
    (h : (Expr.chain operand (.connecting settling) (Expr.connective settling)).read text =
      .error (.unexpected rest wanted)) :
    Completable (Phrase (.chainOf settling) n) text rest := by
  rcases (read_chain_eq_error_iff _ _ _ _ _).1 h with hfirst | ⟨first, mid, hfirst, hothers⟩
  · apply (hstuck hfirst).mono
    rintro text rest ⟨e, hfirst⟩
    exact ⟨e, .chain settling hfirst (.none rest) (.one e)⟩
  · apply ((hread hfirst).isLocal.completable (completable_of_more hread hstuck hothers)).mono
    rintro text rest ⟨mid, hfirst, es, hes⟩
    exact ⟨_, .chain settling hfirst hes (balanced_balance _ first es)⟩

theorem completable_of_readExpression
    (hread : ∀ {text e rest}, operand.read text = .ok (e, rest) → Derives .unary n text e rest)
    (hstuck : ∀ {text rest wanted}, operand.read text = .error (.unexpected rest wanted) →
      Completable (Phrase .unary n) text rest)
    (h : (Expr.expression operand).read text = .error (.unexpected rest wanted)) :
    Completable (Phrase .disjunction n) text rest :=
  completable_of_readChain true (derives_of_readChain false hread)
    (completable_of_readChain false hread hstuck) h

end Chains

theorem exists_unexpected_of_within {failure : Failure}
    (h : failure.within = .unexpected rest wanted) :
    ∃ wanted', failure = .unexpected rest wanted' := by
  cases failure with
  | tooDeep => cases h
  | unexpected rest wanted =>
      cases h
      exact ⟨wanted, rfl⟩

theorem completable_of_readPrimary
    (hstuck : ∀ {m text rest wanted}, n = m + 1 →
      (Expr.operand n).read text = .error (.unexpected rest wanted) →
        Completable (Phrase .unary m) text rest)
    (h : Expr.readPrimary (Expr.operand n) text = .error (.unexpected rest wanted)) :
    Completable (Phrase .unary n) text rest := by
  unfold Expr.readPrimary at h
  simp only at h
  split at h
  · next failure hfail =>
      obtain ⟨wanted', rfl⟩ := exists_unexpected_of_within (Except.error.inj h)
      split at hfail
      · next inside hopen =>
          obtain rfl := Lexeme.after?_eq_some_iff.1 hopen
          cases n with
          | zero =>
              have hdeep : (Expr.expression (Expr.operand 0)).read inside = .error .tooDeep :=
                read_expression_of_first rfl
              simp only [Expr.readGroup, hdeep] at hfail
              cases hfail
          | succ m =>
              exact completable_of_readGroup (derives_of_readExpression derives_of_readOperand)
                (completable_of_readExpression derives_of_readOperand (hstuck rfl)) hfail
      · exact completable_of_readLeaf hfail
  · cases h

/-- An operand is stuck where the operand of its negation is, or where its primary is. -/
theorem read_operand_eq_error
    (h : (Expr.operand (n + 1)).read text = .error (.unexpected rest wanted)) :
    (∃ behind, Sign .not (Lexeme.skipBlank text) behind ∧
        (Expr.operand n).read behind = .error (.unexpected rest wanted)) ∨
      Expr.readPrimary (Expr.operand n) (Lexeme.skipBlank text) =
        .error (.unexpected rest wanted) := by
  change Expr.readOperand (Expr.operand n) text = .error (.unexpected rest wanted) at h
  unfold Expr.readOperand at h
  split at h
  · next behind hsign =>
      split at h
      · next failure hfail =>
          cases h
          exact .inl ⟨behind, (after?_eq_some_iff _ _ _).1 hsign, hfail⟩
      · cases h
  · exact .inr h

theorem Completable.behind_blanks {before : List Char}
    (h : Completable (Phrase .unary n) text rest) (hbefore : Blanks before text) :
    Completable (Phrase .unary n) before rest := by
  apply (hbefore.isLocal.completable h).mono
  rintro text rest ⟨behind, hblanks, e, hoperand⟩
  exact ⟨e, hoperand.behind_blanks nofun hblanks⟩

/-- Where an operand is stuck, it can be completed. -/
theorem completable_of_readOperand
    (h : (Expr.operand (n + 1)).read text = .error (.unexpected rest wanted)) :
    Completable (Phrase .unary n) text rest := by
  induction n generalizing text rest wanted with
  | zero =>
      rcases read_operand_eq_error h with ⟨_, _, hfail⟩ | hfail
      · cases hfail
      · have hprimary := completable_of_readPrimary (n := 0) nofun hfail
        exact hprimary.behind_blanks (blanks_skipBlank text)
  | succ m ih =>
      rcases read_operand_eq_error h with ⟨behind, hsign, hfail⟩ | hfail
      · have hblanks := (blanks_skipBlank text).isLocal
        apply (hblanks.completable (hsign.isLocal.completable (ih hfail))).mono
        rintro text rest ⟨sign, hblanks, behind, hsign, e, hinner⟩
        exact ⟨.not e, .negation hblanks hsign hinner⟩
      · refine (completable_of_readPrimary ?_ hfail).behind_blanks (blanks_skipBlank text)
        rintro _ _ _ _ ⟨⟩ hfail
        exact ih hfail

end Failures

end Grammar

end RecordRules
