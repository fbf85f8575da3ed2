import RecordRules.Proofs.Grammar.Rendering

/-!
Phrases are local: what a phrase takes of a text stays that phrase in front of any other text, as
long as no word runs on there that did not run on before.  More levels of nesting take no phrase
away, and in front of what cannot continue it a phrase has one end and one tree.
-/

namespace RecordRules

namespace Grammar

/-- The relation takes a run of the text, and takes that run in front of other texts too. -/
def Local (P : List Char → List Char → Prop) (text rest : List Char) : Prop :=
  ∃ run, text = run ++ rest ∧ ∀ rest', (Stops rest → Stops rest') → P (run ++ rest') rest'

section Runs

variable {P Q : List Char → List Char → Prop} {text mid rest rest' : List Char}

/-- What follows a run that is not empty does not matter to what stands before the run. -/
theorem stops_append (run : List Char) (h : Stops rest → Stops rest') :
    Stops (run ++ rest) → Stops (run ++ rest') := by
  cases run with
  | nil => exact h
  | cons c run => exact fun hstops => hstops

theorem Local.mono (h : Local P text rest) (hPQ : ∀ {text rest}, P text rest → Q text rest) :
    Local Q text rest := by
  obtain ⟨run, htext, hP⟩ := h
  exact ⟨run, htext, fun rest' hrest' => hPQ (hP rest' hrest')⟩

/-- Two local relations, one behind the other, take the two runs together. -/
theorem Local.append (h : Local P text mid) (h' : Local Q mid rest) :
    Local (fun text rest => ∃ mid, P text mid ∧ Q mid rest) text rest := by
  obtain ⟨run, rfl, hP⟩ := h
  obtain ⟨run', rfl, hQ⟩ := h'
  refine ⟨run ++ run', (List.append_assoc _ _ _).symm, fun rest' hrest' => ?_⟩
  refine ⟨run' ++ rest', ?_, hQ rest' hrest'⟩
  rw [List.append_assoc]
  exact hP _ (stops_append run' hrest')

theorem local_append (run rest : List Char) :
    Local (fun text rest => text = run ++ rest) (run ++ rest) rest :=
  ⟨run, rfl, fun _ _ => rfl⟩

theorem Blanks.isLocal (h : Blanks text rest) : Local Blanks text rest := by
  obtain ⟨run, hrun, rfl⟩ := h
  exact ⟨run, rfl, fun rest' _ => ⟨run, hrun, rfl⟩⟩

/-- Blanks and a symbol behind them. -/
theorem Blanks.isLocal_append (symbol : List Char) (h : Blanks text (symbol ++ rest)) :
    Local (fun text rest => Blanks text (symbol ++ rest)) text rest := by
  apply (h.isLocal.append (local_append symbol rest)).mono
  rintro text rest ⟨mid, hblanks, rfl⟩
  exact hblanks

theorem Word.isLocal {word : String} (h : Word word text rest) : Local (Word word) text rest := by
  obtain ⟨rfl, hstops⟩ := h
  exact ⟨word.toList, rfl, fun rest' hrest' => ⟨rfl, hrest' hstops⟩⟩

theorem Sign.isLocal {op : Operator} (h : Sign op text rest) : Local (Sign op) text rest := by
  cases h with
  | punctuation => exact ⟨_, rfl, fun rest' _ => .punctuation rest'⟩
  | word hw h => exact h.isLocal.mono (.word hw)

theorem Name.isLocal {field : String} (h : Name text field rest) :
    Local (fun text rest => Name text field rest) text rest := by
  obtain ⟨hfield, rfl, hstops⟩ := h
  exact ⟨field.toList, rfl, fun rest' hrest' => ⟨hfield, rfl, hrest' hstops⟩⟩

theorem Literal.isLocal {value : Value} (h : Literal text value rest) :
    Local (fun text rest => Literal text value rest) text rest := by
  cases h with
  | @string body content _ hbody =>
      refine ⟨'"' :: (body ++ ['"']), by simp, fun rest' _ => ?_⟩
      have hliteral := @Literal.string _ _ rest' hbody
      simpa using hliteral
  | true hword => exact hword.isLocal.mono .true
  | false hword => exact hword.isLocal.mono .false
  | @integer digits _ i hdigits => exact ⟨digits, rfl, fun rest' _ => .integer i hdigits⟩

end Runs

mutual

theorem Derives.isLocal {n : Nat} {symbol : Symbol} {text rest : List Char} {e : Expr} :
    Derives symbol n text e rest → Local (fun text rest => Derives symbol n text e rest) text rest
  | .disjunction hfirst hothers hbalanced => by
      apply (hfirst.isLocal.append hothers.isLocal).mono
      rintro text rest ⟨mid, hfirst, hothers⟩
      exact .disjunction hfirst hothers hbalanced
  | .conjunction hfirst hothers hbalanced => by
      apply (hfirst.isLocal.append hothers.isLocal).mono
      rintro text rest ⟨mid, hfirst, hothers⟩
      exact .conjunction hfirst hothers hbalanced
  | .negation hblanks hsign hinner => by
      apply (hblanks.isLocal.append (hsign.isLocal.append hinner.isLocal)).mono
      rintro text rest ⟨sign, hblanks, behind, hsign, hinner⟩
      exact .negation hblanks hsign hinner
  | .operand hblanks hprimary => by
      apply (hblanks.isLocal.append hprimary.isLocal).mono
      rintro text rest ⟨behind, hblanks, hprimary⟩
      exact .operand hblanks hprimary
  | .group hinside hclosing => by
      have hgroup := hinside.isLocal.append (Blanks.isLocal_append [')'] hclosing)
      apply ((local_append ['('] _).append hgroup).mono
      rintro text rest ⟨inside, rfl, mid, hinside, hclosing⟩
      exact .group hinside hclosing
  | .comparison hname heq hblanks hliteral => by
      have hequals := Blanks.isLocal_append ['=', '='] heq
      have hvalue := hblanks.isLocal.append hliteral.isLocal
      apply (hname.isLocal.append (hequals.append hvalue)).mono
      rintro text rest ⟨mid, hname, behind, heq, literal, hblanks, hliteral⟩
      exact .comparison hname heq hblanks hliteral
  | .flag hname => hname.isLocal.mono .flag

theorem Repeats.isLocal {n : Nat} {op : Operator} {symbol : Symbol} {text rest : List Char}
    {es : List Expr} : Repeats op symbol n text es rest →
      Local (fun text rest => Repeats op symbol n text es rest) text rest
  | .none _ => ⟨[], rfl, fun rest' _ => .none rest'⟩
  | .more hblanks hsign he hes => by
      apply (hblanks.isLocal.append (hsign.isLocal.append (he.isLocal.append hes.isLocal))).mono
      rintro text rest ⟨sign, hblanks, behind, hsign, mid, he, hes⟩
      exact .more hblanks hsign he hes

end

mutual

/-- What derives within some levels of nesting derives within more. -/
theorem Derives.deeper {n m : Nat} {symbol : Symbol} {text rest : List Char} {e : Expr} :
    Derives symbol n text e rest → n ≤ m → Derives symbol m text e rest
  | .disjunction hfirst hothers hbalanced, hnm =>
      .disjunction (hfirst.deeper hnm) (hothers.deeper hnm) hbalanced
  | .conjunction hfirst hothers hbalanced, hnm =>
      .conjunction (hfirst.deeper hnm) (hothers.deeper hnm) hbalanced
  | .negation hblanks hsign hinner, hnm => by
      obtain ⟨k, rfl⟩ := Nat.exists_eq_add_of_le hnm
      rw [Nat.add_right_comm]
      exact .negation hblanks hsign (hinner.deeper (Nat.le_add_right _ k))
  | .operand hblanks hprimary, hnm => .operand hblanks (hprimary.deeper hnm)
  | .group hinside hclosing, hnm => by
      obtain ⟨k, rfl⟩ := Nat.exists_eq_add_of_le hnm
      rw [Nat.add_right_comm]
      exact .group (hinside.deeper (Nat.le_add_right _ k)) hclosing
  | .comparison hname heq hblanks hliteral, _ => .comparison hname heq hblanks hliteral
  | .flag hname, _ => .flag hname

theorem Repeats.deeper {n m : Nat} {op : Operator} {symbol : Symbol} {text rest : List Char}
    {es : List Expr} : Repeats op symbol n text es rest → n ≤ m → Repeats op symbol m text es rest
  | .none text, _ => .none text
  | .more hblanks hsign he hes, hnm => .more hblanks hsign (he.deeper hnm) (hes.deeper hnm)

end

theorem IsRule.deeper {n m : Nat} {text : List Char} {e : Expr} (h : IsRule n text e)
    (hnm : n ≤ m) : IsRule m text e := by
  obtain ⟨rest, hderives, hrest⟩ := h
  exact ⟨rest, hderives.deeper hnm, hrest⟩

section Ends

variable {n : Nat} {symbol : Symbol} {text rest : List Char} {e : Expr}

theorem Blanks.stops (h : Blanks text rest) (hrest : Stops rest) : Stops text := by
  obtain ⟨run, hrun, rfl⟩ := h
  cases run with
  | nil => exact hrest
  | cons c run =>
      have hblank : ∀ c ∈ Grammar.blanks, ¬ IsNameChar c := forall_mem_of_all (by decide)
      exact stops_cons _ (hblank c (hrun c List.mem_cons_self))

theorem Derives.isRule (h : Derives .disjunction n text e []) : IsRule n text e :=
  ⟨[], h, .refl []⟩

/-- A phrase that is not continued has one tree and one end. -/
theorem Derives.unique {rest' : List Char} {e' : Expr} (h : Derives symbol n text e rest)
    (hrest : Follows symbol rest) (h' : Derives symbol n text e' rest')
    (hrest' : Follows symbol rest') : e = e' ∧ rest = rest' := by
  have hread := (read_of_derives h hrest).symm.trans (read_of_derives h' hrest')
  simpa using hread

/-- An expression begins with an operand, which is not continued where the operand ends. -/
theorem Derives.exists_first (h : Derives .disjunction n text e rest)
    (hrest : Follows .disjunction rest) :
    ∃ first mid, Derives .unary n text first mid ∧ Follows .unary mid := by
  have hor : Operator.or.separator.after? rest = none :=
    hrest.separator_eq_none (forall_mem_of_all (by decide))
  cases h with
  | @disjunction _ _ mid _ _ _ _ hfirst hothers _ =>
      obtain ⟨hmid, -⟩ := more_of_repeats hothers (by decide) (hrest.mono (by decide)) hor
      have hand : Operator.and.separator.after? mid = none :=
        hmid.separator_eq_none (forall_mem_of_all (by decide))
      cases hfirst with
      | conjunction hfirst hothers _ =>
          obtain ⟨hmid, -⟩ := more_of_repeats hothers (by decide) (hmid.mono (by decide)) hand
          exact ⟨_, _, hfirst, hmid⟩

end Ends

end Grammar

end RecordRules
