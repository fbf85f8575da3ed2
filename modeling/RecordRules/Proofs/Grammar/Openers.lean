import RecordRules.Proofs.Grammar.Locality
import RecordRules.Proofs.Grammar.Nesting

/-!
Openers, which are parentheses and negations in front of an operand.  Each of them takes a level,
so one opener more than there are levels is refused whatever stands behind it, and up to that
number they only have to be closed again.
-/

namespace RecordRules

namespace Grammar

inductive Opener where
  | group
  | negation
deriving DecidableEq

/-- The text begins with these openers, each of them perhaps behind blanks. -/
inductive Opens : List Opener → List Char → List Char → Prop
  | none (rest : List Char) : Opens [] rest rest
  | group {os : List Opener} {text inside rest : List Char} :
      Blanks text ('(' :: inside) → Opens os inside rest → Opens (.group :: os) text rest
  | negation {os : List Opener} {text sign behind rest : List Char} :
      Blanks text sign → Sign .not sign behind → Opens os behind rest →
        Opens (.negation :: os) text rest

/-- The text begins with so many closing parentheses, each of them perhaps behind blanks.  The last
one belongs to the first of the parentheses that were opened. -/
inductive Closes : Nat → List Char → List Char → Prop
  | none (rest : List Char) : Closes 0 rest rest
  | more {n : Nat} {text mid rest : List Char} :
      Closes n text mid → Blanks mid (')' :: rest) → Closes (n + 1) text rest

section Levels

variable {os : List Opener} {text behind rest : List Char}

/-- Openers for which there are not enough levels are refused for that, whatever follows them. -/
theorem Opens.read_operand_tooDeep (h : Opens os text rest) {n : Nat} (hn : n ≤ os.length) :
    (Expr.operand n).read text = .error .tooDeep := by
  induction h generalizing n with
  | none rest =>
      obtain rfl := Nat.le_zero.1 hn
      rfl
  | group hblanks _ ih =>
      cases n with
      | zero => rfl
      | succ m =>
          have hinside := read_expression_of_first (ih (Nat.le_of_succ_le_succ hn))
          exact read_operand_of_group hblanks hinside
  | negation hblanks hsign _ ih =>
      cases n with
      | zero => rfl
      | succ m => exact read_operand_of_negation hblanks hsign (ih (Nat.le_of_succ_le_succ hn))

/-- Openers around a field that are closed again derive as the negations among them, and take one
level each. -/
theorem Opens.derives (h : Opens os text behind) {field : String} {closing : List Char}
    (hfield : Identifier field) (hblanks : Blanks behind (field.toList ++ closing))
    (hcloses : Closes (os.count .group) closing rest) (hrest : Stops rest) :
    Derives .unary os.length text
      (Nat.repeat Expr.not (os.count .negation) (.flag field)) rest := by
  induction h generalizing rest with
  | none behind =>
      cases hcloses
      exact (derives_flag hfield hrest).behind_blanks nofun hblanks
  | group hopening _ ih =>
      rw [List.count_cons_self] at hcloses
      cases hcloses with
      | more hcloses hclosing =>
          have hstops := hclosing.stops (stops_cons rest (by decide))
          have hinside := ih hblanks hcloses hstops
          exact .operand hopening (.group hinside.disjunction_of_unary hclosing)
  | negation hopening hsign _ ih =>
      rw [List.count_cons_of_ne (by decide)] at hcloses
      rw [List.count_cons_self]
      exact .negation hopening hsign (ih hblanks hcloses hrest)

end Levels

/-- Of openers at the start of a text, 129 are too many whatever stands behind them, and that is
what is reported.  Up to 128 openers in front of a field that are closed again give the field,
under as many negations as there are among them. -/
theorem parse_of_opens {os : List Opener} {text : String} {behind : List Char}
    (h : Opens os text.toList behind) :
    (129 ≤ os.length →
      Expr.parse text = .error .tooDeep ∧
        (Expr.parse text).mapError ParseError.reason =
          .error "expression nested too deeply (limit 128)") ∧
      (os.length ≤ 128 → ∀ field closing rest, Identifier field →
        Blanks behind (field.toList ++ closing) → Closes (os.count .group) closing rest →
          Blanks rest [] →
            Expr.parse text = .ok (Nat.repeat Expr.not (os.count .negation) (.flag field))) := by
  constructor
  · intro hmany
    have hread : Expr.read text.toList = .error .tooDeep :=
      read_tooDeep (h.read_operand_tooDeep hmany)
    have hparse : Expr.parse text = .error .tooDeep := by
      rw [Expr.parse, hread]
      rfl
    refine ⟨hparse, ?_⟩
    rw [hparse]
    rfl
  · intro hfew field closing rest hfield hblanks hcloses hrest
    rw [parse_eq_ok_iff_isRule]
    have hunary := h.derives hfield hblanks hcloses (hrest.stops stops_nil)
    have hrule : IsRule os.length text.toList _ :=
      ⟨rest, hunary.disjunction_of_unary, hrest⟩
    exact hrule.deeper hfew

/-- A parenthesis and two negations, again and again, in front of a text. -/
def mixed : Nat → List Char → List Char
  | 0, rest => rest
  | n + 1, rest => "(! not".toList ++ mixed n rest

theorem stops_mixed (n : Nat) {rest : List Char} (h : Stops rest) : Stops (mixed n rest) := by
  cases n with
  | zero => exact h
  | succ n => exact stops_cons _ (by decide)

theorem opens_mixed (n : Nat) {rest : List Char} (h : Stops rest) :
    Opens (List.replicate n [.group, .negation, .negation]).flatten (mixed n rest) rest := by
  induction n with
  | zero => exact .none rest
  | succ n ih =>
      have hword : Sign .not ("not".toList ++ mixed n rest) (mixed n rest) :=
        .word (by decide) ⟨rfl, stops_mixed n h⟩
      exact .group (.refl _) (.negation (.refl _) (.punctuation _)
        (.negation (blanks_cons blank_mem _) hword ih))

theorem closes_replicate (n : Nat) (rest : List Char) :
    Closes n (List.replicate n ')' ++ rest) rest := by
  induction n generalizing rest with
  | zero => exact .none rest
  | succ n ih =>
      rw [List.replicate_succ', List.append_assoc]
      exact .more (ih (')' :: rest)) (.refl _)

/-- Openers of both kinds in one text, 129 of them in front of what is no expression, and 128 of
them around a field. -/
theorem parse_of_opens_mixed :
    let many : List Opener := (List.replicate 43 [.group, .negation, .negation]).flatten
    let deep := String.ofList (mixed 43 "== )".toList)
    let few : List Opener :=
      .group :: .group :: (List.replicate 42 [.group, .negation, .negation]).flatten
    let closed := String.ofList ("( (".toList ++
      mixed 42 (" is_vip".toList ++ List.replicate 44 ')'))
    (many.length = 129 ∧ Expr.parse deep = .error .tooDeep) ∧
      few.length = 128 ∧ Expr.parse closed = .ok (Nat.repeat Expr.not 84 (.flag "is_vip")) := by
  intro many deep few closed
  have hmany : Opens many deep.toList "== )".toList := by
    rw [String.toList_ofList]
    exact opens_mixed 43 (stops_cons _ (by decide))
  have hfew : Opens few closed.toList (" is_vip".toList ++ List.replicate 44 ')') := by
    rw [String.toList_ofList]
    exact .group (.refl _) (.group (blanks_cons blank_mem _)
      (opens_mixed 42 (stops_cons _ (by decide))))
  have hdeep : many.length = 129 := rfl
  have hlevels : few.length = 128 := rfl
  have hname : Identifier "is_vip" := (isName_iff "is_vip").1 (by decide)
  have hblanks : Blanks (" is_vip".toList ++ List.replicate 44 ')')
      ("is_vip".toList ++ List.replicate 44 ')') := blanks_cons blank_mem _
  have hcloses : Closes (few.count .group) (List.replicate 44 ')') [] := by
    have h := closes_replicate 44 []
    rwa [List.append_nil] at h
  exact ⟨⟨hdeep, ((parse_of_opens hmany).1 (Nat.le_of_eq hdeep.symm)).1⟩, hlevels,
    (parse_of_opens hfew).2 (Nat.le_of_eq hlevels) _ _ [] hname hblanks hcloses (.refl [])⟩

end Grammar

end RecordRules
