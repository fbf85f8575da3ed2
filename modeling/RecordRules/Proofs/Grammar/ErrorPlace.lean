import RecordRules.Proofs.Grammar.Completion
import RecordRules.Proofs.Grammar.Stopping

/-!
Where a syntax error is reported.  The text up to that place can be completed to a rule, but not by
the token that stands there: from token to token, it is the first place at which no rule goes on as
the text does.
-/

namespace RecordRules

theorem utf8Length_eq (chars : List Char) :
    utf8Length chars = (String.ofList chars).utf8ByteSize := by
  have hfold : ∀ n, chars.foldl (fun n c => n + c.utf8Size) n =
      n + (String.ofList chars).utf8ByteSize := by
    induction chars with
    | nil => exact fun n => rfl
    | cons c chars ih =>
        intro n
        rw [List.foldl_cons, ih, String.ofList_cons, String.utf8ByteSize_append,
          String.utf8ByteSize_singleton, Nat.add_assoc]
  rw [utf8Length, hfold, Nat.zero_add]

theorem Place.ofRest_append (before rest : List Char) :
    Place.ofRest (before ++ rest) rest = ⟨before, rest⟩ := by
  simp [Place.ofRest]

namespace Grammar

section Stuck

variable {text before rest rest' : List Char} {wanted : List Wanted} {e : Expr}

/-- Reading a whole text stops inside its expression, or behind the expression and blanks. -/
theorem read_eq_error_iff :
    Expr.read text = .error (.unexpected rest wanted) ↔
      (Expr.expression (Expr.operand (nestingLimit + 1))).read text =
          .error (.unexpected rest wanted) ∨
        ∃ e mid, (Expr.expression (Expr.operand (nestingLimit + 1))).read text = .ok (e, mid) ∧
          Lexeme.skipBlank mid = rest ∧ rest ≠ [] ∧ wanted = [] := by
  unfold Expr.read
  generalize (Expr.expression (Expr.operand (nestingLimit + 1))).read text = found
  rcases found with failure | ⟨e, mid⟩
  · simp
  · dsimp only
    constructor
    · intro h
      split at h
      · cases h
      · next hend =>
          cases h
          exact .inr ⟨e, mid, rfl, rfl, hend, rfl⟩
    · rintro (h | ⟨_, _, ⟨⟩, rfl, hend, rfl⟩)
      · cases h
      · split
        · next hnil => exact absurd hnil hend
        · rfl

/-- What was read as a whole expression is a rule, together with the blanks behind it. -/
theorem isRule_of_read {mid : List Char}
    (h : (Expr.expression (Expr.operand (nestingLimit + 1))).read text = .ok (e, mid)) :
    ∃ before, text = before ++ Lexeme.skipBlank mid ∧ IsRule nestingLimit before e := by
  obtain ⟨run, hrun, hmid⟩ := blanks_skipBlank mid
  obtain ⟨phrase, rfl, hphrase⟩ := (derives_of_readExpression derives_of_readOperand h).isLocal
  have hend : Blanks run [] := ⟨run, hrun, (List.append_nil run).symm⟩
  refine ⟨phrase ++ run, by rw [List.append_assoc, ← hmid], run, ?_, hend⟩
  exact hphrase run fun _ => hend.stops stops_nil

/-- Up to where reading stops, the text is the beginning of a rule. -/
theorem exists_isRule_of_read (h : Expr.read text = .error (.unexpected rest wanted)) :
    ∃ before more e, text = before ++ rest ∧ IsRule nestingLimit (before ++ more) e := by
  rcases read_eq_error_iff.1 h with hstuck | ⟨e, mid, hread, rfl, -, -⟩
  · obtain ⟨before, more, rfl, -, hmore⟩ :=
      completable_of_readExpression derives_of_readOperand completable_of_readOperand hstuck
    obtain ⟨e, hderives⟩ := hmore [] stops_nil
    rw [List.append_nil] at hderives
    exact ⟨before, more, e, rfl, hderives.isRule⟩
  · obtain ⟨before, htext, hrule⟩ := isRule_of_read hread
    exact ⟨before, [], e, htext, by rwa [List.append_nil]⟩

/-- Where reading stops at a token, it stops at that token whatever stands behind it. -/
theorem read_of_sameToken (hr : SameToken rest rest')
    (h : Expr.read (before ++ rest) = .error (.unexpected rest wanted)) :
    Expr.read (before ++ rest') = .error (.unexpected rest' wanted) := by
  have hsteady := steady_expression hr (steady_operand hr (nestingLimit + 1)) (before ++ rest)
  have halike := hsteady.alike ⟨before, rfl, rfl⟩
  refine read_eq_error_iff.2 ((read_eq_error_iff.1 h).imp ?_ ?_)
  · intro hstuck
    rw [hstuck] at halike
    exact halike rfl
  · rintro ⟨e, mid, hread, rfl, hend, rfl⟩
    rw [hread] at halike
    obtain ⟨mid', hread', hsame⟩ := halike (Lexeme.length_skipBlank_le mid)
    obtain ⟨c, tail, tail', -, htail', -⟩ := hr.exists_first
    exact ⟨e, mid', hread', (hsame.skipBlank hr).eq, by simp [htail'], rfl⟩

end Stuck

section Texts

variable {text : String} {place : Place} {wanted : List Wanted}

theorem parse_eq_error_iff :
    Expr.parse text = .error (.unexpected place wanted) ↔
      ∃ rest, Expr.read text.toList = .error (.unexpected rest wanted) ∧
        Place.ofRest text.toList rest = place := by
  rw [Expr.parse]
  constructor
  · intro h
    cases hread : Expr.read text.toList with
    | ok e =>
        rw [hread] at h
        cases h
    | error failure =>
        rw [hread] at h
        cases failure with
        | tooDeep => cases h
        | unexpected rest wanted =>
            cases h
            exact ⟨rest, rfl, rfl⟩
  · rintro ⟨rest, hread, rfl⟩
    rw [hread]
    rfl

/-- A syntax error is reported between two characters of the text.  Some rule begins as the text
does up to that place.  No rule goes on there with the token that stands there: whatever stands
behind the token, the same error is reported at the same place.  Where a whole expression was read
before, the text up to the place is a rule. -/
theorem place_of_parse (h : Expr.parse text = .error (.unexpected place wanted)) :
    (text = String.ofList place.before ++ String.ofList place.after ∧
        place.offset = (String.ofList place.before).utf8ByteSize ∧
        place.offset ≤ text.utf8ByteSize ∧ String.Pos.Raw.IsValid text ⟨place.offset⟩) ∧
      (∃ more e, Expr.parse (String.ofList place.before ++ more) = .ok e) ∧
      (∀ after, SameToken place.after after →
        Expr.parse (String.ofList (place.before ++ after)) =
          .error (.unexpected ⟨place.before, after⟩ wanted)) ∧
      ∀ e rest, (Expr.expression (Expr.operand (nestingLimit + 1))).read text.toList =
        .ok (e, rest) → Expr.parse (String.ofList place.before) = .ok e := by
  obtain ⟨rest, hread, rfl⟩ := parse_eq_error_iff.1 h
  obtain ⟨before, more, e, htext, hrule⟩ := exists_isRule_of_read hread
  rw [htext] at hread
  rw [htext, Place.ofRest_append]
  have htext' : text = String.ofList before ++ String.ofList rest := by
    rw [← String.ofList_append, ← htext, String.ofList_toList]
  have hoffset := utf8Length_eq before
  refine ⟨⟨htext', hoffset, ?_, ?_⟩, ⟨String.ofList more, e, ?_⟩, fun after hafter => ?_, ?_⟩
  · rw [htext', String.utf8ByteSize_append]
    exact Nat.le_trans (Nat.le_of_eq hoffset) (Nat.le_add_right _ _)
  · refine String.Pos.Raw.isValid_iff_exists_append.2 ⟨_, _, htext', ?_⟩
    exact congrArg String.Pos.Raw.mk hoffset
  · rw [parse_eq_ok_iff_isRule, ← String.ofList_append, String.toList_ofList]
    exact hrule
  · refine parse_eq_error_iff.2 ⟨after, ?_, ?_⟩
    · rw [String.toList_ofList]
      exact read_of_sameToken hafter hread
    · rw [String.toList_ofList, Place.ofRest_append]
  · intro e' mid hexpression
    rcases read_eq_error_iff.1 hread with hstuck | ⟨_, _, hexpression', rfl, -, -⟩
    · cases hexpression.symm.trans hstuck
    · cases hexpression.symm.trans hexpression'
      obtain ⟨before', heq, hrule⟩ := isRule_of_read hexpression
      rwa [parse_eq_ok_iff_isRule, String.toList_ofList, List.append_cancel_right heq]

/-- A parenthesis that nothing opens is reported behind the comparison, of which the string takes
two bytes for one of its characters. -/
theorem place_of_parse_trailing :
    Expr.parse "name == \"é\" )" =
        .error (.unexpected ⟨"name == \"é\" ".toList, ")".toList⟩ []) ∧
      String.Pos.Raw.IsValid "name == \"é\" )" ⟨13⟩ ∧
      (∃ more e, Expr.parse ("name == \"é\" " ++ more) = .ok e) ∧
      Expr.parse "name == \"é\" ) or a" =
        .error (.unexpected ⟨"name == \"é\" ".toList, ") or a".toList⟩ []) ∧
      Expr.parse "name == \"é\" " = .ok (.eq "name" (.str "é")) := by
  have hname : Identifier "name" := (isName_iff "name").1 (by decide)
  have hvalue : Literal "\"é\" )".toList (.str "é") " )".toList :=
    .string (.plain (by decide) (by decide) .empty)
  have hderives : Derives .unary nestingLimit "name == \"é\" )".toList (.eq "name" (.str "é"))
      " )".toList :=
    .operand (.refl _) (.comparison ⟨hname, rfl, stops_cons _ (by decide)⟩
      (blanks_cons blank_mem _) (blanks_cons blank_mem _) hvalue)
  have hread : (Expr.expression (Expr.operand (nestingLimit + 1))).read
      "name == \"é\" )".toList = .ok (.eq "name" (.str "é"), " )".toList) :=
    read_of_derives hderives.disjunction_of_unary
      (follows_of_closing (blanks_cons blank_mem _))
  have h : Expr.parse "name == \"é\" )" =
      .error (.unexpected ⟨"name == \"é\" ".toList, ")".toList⟩ []) :=
    parse_eq_error_iff.2
      ⟨")".toList, read_eq_error_iff.2 (.inr ⟨_, _, hread, rfl, by decide, rfl⟩), rfl⟩
  have hsame : SameToken ")".toList ") or a".toList :=
    ⟨.symbol, ")".toList, [], " or a".toList, .symbol (by decide), .symbol (by decide), rfl, rfl⟩
  have hoffset : Place.offset ⟨"name == \"é\" ".toList, ")".toList⟩ = 13 := by decide
  have hplace : String.ofList "name == \"é\" ".toList = "name == \"é\" " := String.ofList_toList
  obtain ⟨⟨-, -, -, hvalid⟩, hmore, hstuck, hrule⟩ := place_of_parse h
  rw [hoffset] at hvalid
  rw [hplace] at hmore hrule
  refine ⟨h, hvalid, hmore, ?_, hrule _ _ hread⟩
  have hafter := hstuck _ hsame
  rwa [← String.toList_append, String.ofList_toList] at hafter

end Texts

end Grammar

end RecordRules
