import RecordRules.Proofs.Grammar.Lookahead

/-!
A reader that stops at a token has seen no more of the text than that token: in front of anything
that begins with the same token it reads the same, and it stops there for the same reason.
-/

namespace RecordRules

namespace Grammar

/-- The number of characters behind the place where reading stopped. -/
def remaining : Failure → Nat
  | .tooDeep => 0
  | .unexpected rest _ => rest.length

section Readers

variable {α β : Type} {r r' text rest : List Char}

/-- The number of characters behind what was read, or behind the place where reading stopped. -/
def leftover : Except Failure (α × List Char) → Nat
  | .ok (_, rest) => rest.length
  | .error failure => remaining failure

/-- What was read in front of `r` is also read in front of `r'`, and where reading stops at `r`, it
stops at `r'` for the same reason. -/
def ReadsAlike (r r' : List Char) : (found found' : Except Failure (α × List Char)) → Prop
  | .ok (a, rest), found' =>
      r.length ≤ rest.length → ∃ rest', found' = .ok (a, rest') ∧ SameBefore r r' rest rest'
  | .error (.unexpected rest wanted), found' =>
      rest = r → found' = .error (.unexpected r' wanted)
  | .error .tooDeep, _ => True

/-- Reading this text does not depend on what stands behind the token at the place. -/
structure Steady (r r' : List Char) (f : List Char → Except Failure (α × List Char))
    (text : List Char) : Prop where
  short : leftover (f text) ≤ text.length
  alike {text' : List Char} : SameBefore r r' text text' → ReadsAlike r r' (f text) (f text')

/-- Reads behind what is looked for, or else the same text. -/
def ifNext (look : List Char → Option (List Char))
    (f g : List Char → Except Failure (α × List Char)) (text : List Char) :
    Except Failure (α × List Char) :=
  match look text with
  | none => f text
  | some rest => g rest

/-- Reads behind what must be there. -/
def require (look : List Char → Option (α × List Char)) (wanted : List Wanted)
    (g : α → List Char → Except Failure (β × List Char)) (text : List Char) :
    Except Failure (β × List Char) :=
  match look text with
  | none => .error (.unexpected text wanted)
  | some (a, rest) => g a rest

variable {f : List Char → Except Failure (α × List Char)}
  {g : α → List Char → Except Failure (β × List Char)}

theorem steady_done (a : α) : Steady r r' (fun text => .ok (a, text)) text where
  short := Nat.le_refl _
  alike htext _ := ⟨_, rfl, htext⟩

theorem steady_refuse (wanted : List Wanted) :
    Steady r r' (fun text => (.error (.unexpected text wanted) : Except Failure (α × List Char)))
      text where
  short := Nat.le_refl _
  alike htext heq := by
    subst heq
    rw [htext.eq]

theorem Steady.behind_blanks (h : Steady r r' f (Lexeme.skipBlank text)) (hr : SameToken r r') :
    Steady r r' (fun text => f (Lexeme.skipBlank text)) text where
  short := Nat.le_trans h.short (Lexeme.length_skipBlank_le text)
  alike htext := h.alike (htext.skipBlank hr)

/-- Reading that went past the place has nothing to tell of it. -/
theorem alike_of_past {found found' : Except Failure (α × List Char)}
    (h : leftover found < r.length) : ReadsAlike r r' found found' := by
  rcases found with (_ | ⟨rest, wanted⟩) | ⟨a, rest⟩
  · exact True.intro
  · rintro rfl
    exact absurd h (Nat.lt_irrefl _)
  · intro hrest
    exact absurd h (Nat.not_lt.2 hrest)

/-- Reading goes on at `rest`, and in front of the other text it goes on at the same place. -/
theorem Steady.of_next {f' : List Char → Except Failure (α × List Char)}
    (h : Steady r r' f' rest) (heq : f text = f' rest) (hle : rest.length ≤ text.length)
    (hnext : ∀ {text'}, SameBefore r r' text text' → r.length ≤ rest.length →
      ∃ rest', f text' = f' rest' ∧ SameBefore r r' rest rest') :
    Steady r r' f text where
  short := by
    rw [heq]
    exact Nat.le_trans h.short hle
  alike htext := by
    rw [heq]
    by_cases hrest : r.length ≤ rest.length
    · obtain ⟨rest', heq', hsame⟩ := hnext htext hrest
      rw [heq']
      exact h.alike hsame
    · exact alike_of_past (Nat.lt_of_le_of_lt h.short (Nat.lt_of_not_le hrest))

/-- Reading stops, and if it stops at the place, then in the other text too. -/
theorem steady_of_error {failure : Failure} (heq : f text = .error failure)
    (hle : remaining failure ≤ text.length)
    (hnext : ∀ {text' wanted}, SameBefore r r' text text' → failure = .unexpected r wanted →
      f text' = .error (.unexpected r' wanted)) :
    Steady r r' f text where
  short := by
    rw [heq]
    exact hle
  alike htext := by
    rw [heq]
    cases failure with
    | tooDeep => exact True.intro
    | unexpected rest wanted =>
        rintro rfl
        exact hnext htext rfl

theorem Steady.andThen (hf : Steady r r' f text)
    (hg : ∀ a rest, f text = .ok (a, rest) → Steady r r' (g a) rest) :
    Steady r r' (Grammar.andThen f g) text := by
  obtain ⟨hshort, halike⟩ := hf
  cases hread : f text with
  | ok found =>
      obtain ⟨a, rest⟩ := found
      rw [hread] at hshort
      refine (hg a rest hread).of_next (by rw [Grammar.andThen, hread]) hshort ?_
      intro text' htext hrest
      have hfound := halike htext
      rw [hread] at hfound
      obtain ⟨rest', hread', hsame⟩ := hfound hrest
      exact ⟨rest', by rw [Grammar.andThen, hread'], hsame⟩
  | error failure =>
      rw [hread] at hshort
      refine steady_of_error (by rw [Grammar.andThen, hread]) hshort ?_
      rintro text' wanted htext rfl
      have hfound := halike htext
      rw [hread] at hfound
      rw [Grammar.andThen, hfound rfl]

theorem Steady.ifNext {look : List Char → Option (List Char)}
    {f' : List Char → Except Failure (α × List Char)} (hlook : Peeks r r' look)
    (hmissed : Steady r r' f text)
    (hfound : ∀ rest, look text = some rest → Steady r r' f' rest) :
    Steady r r' (Grammar.ifNext look f f') text := by
  cases hnext : look text with
  | none =>
      refine hmissed.of_next (by rw [Grammar.ifNext, hnext]) (Nat.le_refl _) ?_
      intro text' htext _
      exact ⟨text', by rw [Grammar.ifNext, hlook.missed htext hnext], htext⟩
  | some rest =>
      refine (hfound rest hnext).of_next (by rw [Grammar.ifNext, hnext]) (hlook.short hnext) ?_
      intro text' htext hrest
      obtain ⟨rest', hnext', hsame⟩ := hlook.found htext hnext hrest
      exact ⟨rest', by rw [Grammar.ifNext, hnext'], hsame⟩

theorem Steady.require {look : List Char → Option (α × List Char)} (wanted : List Wanted)
    (hlook : Needs r r' look)
    (hg : ∀ a rest, look text = some (a, rest) → Steady r r' (g a) rest) :
    Steady r r' (Grammar.require look wanted g) text := by
  cases hnext : look text with
  | none =>
      refine steady_of_error (by rw [Grammar.require, hnext]) (Nat.le_refl _) ?_
      rintro text' _ htext ⟨⟩
      rw [htext.eq, Grammar.require, hlook.missed hnext]
  | some found =>
      obtain ⟨a, rest⟩ := found
      refine (hg a rest hnext).of_next (by rw [Grammar.require, hnext]) (hlook.short hnext) ?_
      intro text' htext hrest
      obtain ⟨rest', hnext', hsame⟩ := hlook.found htext hnext hrest
      exact ⟨rest', by rw [Grammar.require, hnext'], hsame⟩

end Readers

section Rules

variable {r r' : List Char}

def described {α : Type} (f : List Char → Except Failure (α × List Char)) (text : List Char) :
    Except Failure (α × List Char) :=
  match f text with
  | .error failure => .error failure.within
  | .ok found => .ok found

theorem Steady.described {α : Type} {f : List Char → Except Failure (α × List Char)}
    {text : List Char} (h : Steady r r' f text) : Steady r r' (Grammar.described f) text := by
  obtain ⟨hshort, halike⟩ := h
  cases hread : f text with
  | ok found =>
      obtain ⟨a, rest⟩ := found
      rw [hread] at hshort
      refine (steady_done a).of_next (by rw [Grammar.described, hread]) hshort ?_
      intro text' htext hrest
      have hfound := halike htext
      rw [hread] at hfound
      obtain ⟨rest', hread', hsame⟩ := hfound hrest
      exact ⟨rest', by rw [Grammar.described, hread'], hsame⟩
  | error failure =>
      rw [hread] at hshort
      have heq : Grammar.described f text = .error failure.within := by
        rw [Grammar.described, hread]
      cases failure with
      | tooDeep => exact steady_of_error heq hshort nofun
      | unexpected rest wanted =>
          refine steady_of_error heq hshort ?_
          rintro text' _ htext ⟨⟩
          have hfound := halike htext
          rw [hread] at hfound
          rw [Grammar.described, hfound rfl]
          rfl

theorem readLeaf_eq : Expr.readLeaf =
    require Lexeme.name? [.fieldName] fun field =>
      ifNext (fun text => Lexeme.after? ['=', '='] (Lexeme.skipBlank text))
        (fun text => .ok (.flag (String.ofList field), text))
        (fun text => require Literal.read? [.literal]
          (fun value text => .ok (.eq (String.ofList field) value, text))
          (Lexeme.skipBlank text)) := by
  funext text
  unfold Expr.readLeaf require ifNext
  rcases Lexeme.name? text with _ | ⟨field, rest⟩
  · rfl
  · dsimp only
    rcases Lexeme.after? ['=', '='] (Lexeme.skipBlank rest) with _ | behind
    · rfl
    · dsimp only
      rcases Literal.read? (Lexeme.skipBlank behind) with _ | ⟨value, rest'⟩ <;> rfl

theorem readGroup_eq (inside : Reader Failure Expr) : Expr.readGroup inside =
    andThen inside.read fun e text =>
      ifNext (Lexeme.after? [')']) (fun text => .error (.unexpected text [.closing]))
        (fun text => .ok (e, text)) (Lexeme.skipBlank text) := by
  funext text
  unfold Expr.readGroup andThen ifNext
  cases inside.read text <;> rfl

theorem readPrimary_eq (deeper : Reader Failure Expr) : Expr.readPrimary deeper =
    described (ifNext (Lexeme.after? ['(']) Expr.readLeaf
      (Expr.readGroup (Expr.expression deeper))) := by
  funext text
  unfold Expr.readPrimary described ifNext
  rcases Lexeme.after? ['('] text with _ | rest
  · dsimp only
    cases Expr.readLeaf text <;> rfl
  · dsimp only
    cases Expr.readGroup (Expr.expression deeper) rest <;> rfl

theorem readOperand_eq (deeper : Reader Failure Expr) : Expr.readOperand deeper =
    fun text => ifNext Operator.not.after? (Expr.readPrimary deeper)
      (andThen deeper.read fun e text => .ok (.not e, text)) (Lexeme.skipBlank text) := by
  funext text
  unfold Expr.readOperand andThen ifNext
  rcases Operator.not.after? (Lexeme.skipBlank text) with _ | behind
  · rfl
  · dsimp only
    cases deeper.read behind <;> rfl

theorem more_eq (operand : Reader Failure Expr) (s : Separator) (found : List Expr) :
    operand.more s found =
      ifNext s.after? (fun text => .ok (found.reverse, text))
        (andThen operand.read fun e => operand.more s (e :: found)) := by
  funext text
  rw [Reader.more, ifNext]
  split
  · next hsep => rw [hsep]
  · next behind hsep =>
      rw [hsep]
      dsimp only
      rw [andThen]
      split
      · next hread => rw [hread]
      · next hread => rw [hread]

section Steadiness

variable (hr : SameToken r r') {operand : Reader Failure Expr}

include hr

theorem steady_readLeaf (text : List Char) : Steady r r' Expr.readLeaf text := by
  rw [readLeaf_eq]
  have hequals : Peeks r r' (Lexeme.after? ['=', '=']) :=
    peeks_symbol hr (by decide : "==" ∈ symbols)
  refine .require _ (needs_name hr) fun field rest _ => ?_
  refine .ifNext (hequals.behind_blanks hr) (steady_done _) fun behind _ => ?_
  exact Steady.behind_blanks (.require _ (needs_literal hr) fun _ _ _ => steady_done _) hr

theorem steady_readGroup {inside : Reader Failure Expr}
    (hinside : ∀ text, Steady r r' inside.read text) (text : List Char) :
    Steady r r' (Expr.readGroup inside) text := by
  rw [readGroup_eq]
  have hclosing : Peeks r r' (Lexeme.after? [')']) := peeks_symbol hr (by decide : ")" ∈ symbols)
  refine (hinside text).andThen fun e rest _ => ?_
  exact Steady.behind_blanks (.ifNext hclosing (steady_refuse _) fun _ _ => steady_done _) hr

theorem steady_more (hoperand : ∀ text, Steady r r' operand.read text) (op : Operator)
    (found : List Expr) (text : List Char) :
    Steady r r' (operand.more op.separator found) text := by
  induction hlength : text.length using Nat.strongRecOn generalizing found text with
  | ind n ih =>
      subst hlength
      rw [more_eq]
      refine .ifNext ((peeks_operator hr op).behind_blanks hr) (steady_done _) fun behind hsep => ?_
      refine (hoperand behind).andThen fun e rest hread => ?_
      have hshorter := Nat.lt_trans (operand.shorter hread) (op.separator.shorter hsep)
      exact ih rest.length hshorter (e :: found) rest rfl

theorem steady_chain (hoperand : ∀ text, Steady r r' operand.read text) (op : Operator)
    (join : Expr → Expr → Expr) (text : List Char) :
    Steady r r' (Expr.chain operand op join).read text := by
  rw [read_chain_eq]
  refine (hoperand text).andThen fun first rest _ => ?_
  exact (steady_more hr hoperand op [] rest).andThen fun _ _ _ => steady_done _

theorem steady_expression (hoperand : ∀ text, Steady r r' operand.read text)
    (text : List Char) : Steady r r' (Expr.expression operand).read text :=
  steady_chain hr (steady_chain hr hoperand .and .and) .or .or text

theorem steady_readPrimary (hoperand : ∀ text, Steady r r' operand.read text)
    (text : List Char) : Steady r r' (Expr.readPrimary operand) text := by
  rw [readPrimary_eq]
  have hopen : Peeks r r' (Lexeme.after? ['(']) := peeks_symbol hr (by decide : "(" ∈ symbols)
  refine Steady.described (.ifNext hopen (steady_readLeaf hr text) fun rest _ => ?_)
  exact steady_readGroup hr (steady_expression hr hoperand) rest

/-- Reading an operand that stops at a token depends on no more of the text than that token. -/
theorem steady_operand (n : Nat) (text : List Char) :
    Steady r r' (Expr.operand n).read text := by
  induction n generalizing text with
  | zero => exact ⟨Nat.zero_le _, fun _ => True.intro⟩
  | succ n ih =>
      change Steady r r' (Expr.readOperand (Expr.operand n)) text
      rw [readOperand_eq]
      refine Steady.behind_blanks (.ifNext (peeks_operator hr .not)
        (steady_readPrimary hr ih _) fun behind _ => ?_) hr
      exact (ih behind).andThen fun _ _ _ => steady_done _

end Steadiness

end Rules

end Grammar

end RecordRules
