import RecordRules.Proofs.Grammar.Locality

/-!
Rules are composed of rules.  Groups of rules with operators between them are read as the balanced
tree of what the rules in them are read as; groups that stand side by side do not share their levels
of nesting.  Blanks around a rule do not matter.
-/

namespace RecordRules

namespace Grammar

/-- A run of blanks, perhaps an empty one. -/
def IsBlank (run : String) : Prop :=
  ∀ c ∈ run.toList, c ∈ blanks

instance (run : String) : Decidable (IsBlank run) :=
  List.decidableBAll (fun c => c ∈ blanks) run.toList

def spellings (op : Operator) : List String :=
  punctuation op :: words op

/-- The text stands for `e`, and is a rule in parentheses too. -/
def Encloses (text : String) (e : Expr) : Prop :=
  Expr.parse text = .ok e ∧ ∃ e', Expr.parse ("(" ++ text ++ ")") = .ok e'

/-- Texts in parentheses, and between each two of them one operator in any of its spellings. -/
inductive Joined (op : Operator) : String → List Expr → Prop
  | one {text : String} {e : Expr} : Encloses text e → Joined op ("(" ++ text ++ ")") [e]
  | more {text before sign after others : String} {e : Expr} {es : List Expr} :
      Encloses text e → IsBlank before → sign ∈ spellings op → IsBlank after →
        Joined op others es →
          Joined op ("(" ++ text ++ ")" ++ before ++ sign ++ after ++ others) (e :: es)

theorem toList_parentheses (text : String) :
    ("(" ++ text ++ ")").toList = '(' :: (text.toList ++ [')']) := by
  simp

section Groups

variable {n : Nat} {text rest : List Char} {e : Expr}

theorem IsBlank.blanks {run : String} (h : IsBlank run) (rest : List Char) :
    Blanks (run.toList ++ rest) rest :=
  ⟨run.toList, h, rfl⟩

theorem not_name_parenthesis (inside : List Char) {field : String} :
    ¬ Name ('(' :: inside) field rest := by
  intro h
  obtain ⟨c, tail, heq, hstart⟩ := h.exists_first
  cases heq
  exact absurd hstart (by decide)

/-- An operand that begins with a parenthesis is a group. -/
theorem Derives.exists_inside {inside : List Char} (h : Derives .unary n ('(' :: inside) e rest) :
    ∃ m mid, n = m + 1 ∧ Derives .disjunction m inside e mid ∧ Blanks mid (')' :: rest) := by
  cases h with
  | negation hblanks hsign _ =>
      have hopen := hblanks.skipBlank_of_sign hsign
      rw [skipBlank_cons inside (by decide)] at hopen
      obtain ⟨c, hc, tail, heq⟩ := hsign.exists_first
      cases hopen.trans heq
      exact absurd hc (by decide)
  | operand hblanks hprimary =>
      obtain ⟨⟨c, tail, rfl, hc⟩, -⟩ := hprimary.begins
      have hopen := hblanks.skipBlank_cons hc
      rw [skipBlank_cons inside (by decide)] at hopen
      cases hopen
      cases hprimary with
      | group hinside hclosing => exact ⟨_, _, rfl, hinside, hclosing⟩
      | comparison hname _ _ _ | flag hname => exact absurd hname (not_name_parenthesis inside)

/-- A rule in parentheses is an operand, whatever follows it. -/
theorem IsRule.parenthesized (h : IsRule n text e) (rest : List Char) :
    Derives .unary (n + 1) ('(' :: (text ++ ')' :: rest)) e rest := by
  obtain ⟨mid, hderives, run', hrun', hmid⟩ := h
  obtain rfl : mid = run' := hmid.trans (List.append_nil run')
  obtain ⟨run, rfl, hlocal⟩ := hderives.isLocal
  have hclosing : Blanks (mid ++ ')' :: rest) (')' :: rest) := ⟨mid, hrun', rfl⟩
  have hinside := hlocal _ fun _ => hclosing.stops (stops_cons rest (by decide))
  rw [← List.append_assoc] at hinside
  exact .operand (.refl _) (.group hinside hclosing)

/-- An operand that is a text in parentheses has a rule in them, with a level less. -/
theorem Derives.exists_isRule (h : Derives .unary n ('(' :: (text ++ [')'])) e []) :
    ∃ m, n = m + 1 ∧ IsRule m text e := by
  obtain ⟨m, mid, rfl, hinside, run', hrun', rfl⟩ := h.exists_inside
  obtain ⟨run, htext, hlocal⟩ := hinside.isLocal
  obtain rfl : text = run ++ run' :=
    List.append_cancel_right (htext.trans (List.append_assoc _ _ _).symm)
  have hend : Blanks run' [] := ⟨run', hrun', (List.append_nil run').symm⟩
  exact ⟨m, rfl, run', hlocal run' fun _ => hend.stops stops_nil, hend⟩

/-- Where a text is a rule and is one in parentheses too, it is a rule with a level less. -/
theorem IsRule.exists_isRule {e' : Expr} (h : IsRule n text e)
    (h' : IsRule n ('(' :: (text ++ [')'])) e') : ∃ m, n = m + 1 ∧ IsRule m text e := by
  obtain ⟨rest, hderives, hblanks⟩ := h'
  obtain ⟨first, mid, hfirst, hmid⟩ := hderives.exists_first (follows_of_end hblanks)
  obtain ⟨rfl, rfl⟩ := (hfirst.deeper (Nat.le_succ n)).unique hmid (h.parenthesized [])
    (follows_of_end (.refl []))
  exact hfirst.exists_isRule

theorem Encloses.derives {text : String} (h : Encloses text e) (rest : List Char) :
    Derives .unary nestingLimit ('(' :: (text.toList ++ ')' :: rest)) e rest := by
  obtain ⟨h, e', h'⟩ := h
  rw [parse_eq_ok_iff_isRule] at h
  rw [parse_eq_ok_iff_isRule, toList_parentheses] at h'
  obtain ⟨m, hlevels, hrule⟩ := h.exists_isRule h'
  rw [show nestingLimit = m + 1 from hlevels]
  exact hrule.parenthesized rest

end Groups

section Chains

variable {op : Operator} {text : String} {es : List Expr}

theorem Joined.exists_first (h : Joined op text es) : ∃ tail, text.toList = '(' :: tail := by
  cases h <;> simp

theorem sign_of_mem_spellings {sign : String} (h : sign ∈ spellings op) {rest : List Char}
    (hrest : Stops rest) : Sign op (sign.toList ++ rest) rest := by
  rcases List.mem_cons.1 h with rfl | hword
  · exact .punctuation rest
  · exact .word hword ⟨rfl, hrest⟩

/-- Joined texts are an operand and further operands of the chain. -/
theorem Joined.exists_repeats {symbol : Symbol}
    (hsymbol : ∀ {text e rest}, Derives .unary nestingLimit text e rest →
      Derives symbol nestingLimit text e rest)
    (h : Joined op text es) :
    ∃ e others mid, es = e :: others ∧ Derives .unary nestingLimit text.toList e mid ∧
      Repeats op symbol nestingLimit mid others [] := by
  induction h with
  | @one text e htext =>
      refine ⟨e, [], [], rfl, ?_, .none []⟩
      rw [toList_parentheses]
      exact htext.derives []
  | @more text before sign after others e es htext hbefore hsign hafter hothers ih =>
      obtain ⟨next, es', mid, rfl, hnext, hrepeats⟩ := ih
      have hblanks := hafter.blanks others.toList
      have hstops : Stops others.toList := by
        obtain ⟨tail, htail⟩ := hothers.exists_first
        rw [htail]
        exact stops_cons tail (by decide)
      refine ⟨e, next :: es', _, rfl, ?_, .more (hbefore.blanks _)
        (sign_of_mem_spellings hsign (hblanks.stops hstops))
        (hsymbol (hnext.behind_blanks nofun hblanks)) hrepeats⟩
      simpa using htext.derives _

theorem Joined.parse (settling : Bool) (h : Joined (.connecting settling) text es) :
    ∃ tree, Balanced (Expr.connective settling) es tree ∧ Expr.parse text = .ok tree := by
  obtain ⟨e, others, mid, rfl, hfirst, hothers⟩ :=
    h.exists_repeats (Derives.operand_of_unary settling)
  have hbalanced := balanced_balance (Expr.connective settling) e others
  have hchain := Derives.chain settling (hfirst.operand_of_unary settling) hothers hbalanced
  exact ⟨_, hbalanced, (parse_eq_ok_iff_isRule _ _).2 (hchain.disjunction_of_chain settling).isRule⟩

end Chains

/-- Blanks around a rule leave it the rule that it is. -/
theorem IsRule.between_blanks {n : Nat} {text : List Char} {e : Expr} (h : IsRule n text e)
    {before after : String} (hbefore : IsBlank before) (hafter : IsBlank after) :
    IsRule n (before.toList ++ (text ++ after.toList)) e := by
  obtain ⟨rest, hderives, hrest⟩ := h
  obtain ⟨run, rfl, hlocal⟩ := hderives.isLocal
  have hend : Blanks (rest ++ after.toList) [] := by
    obtain ⟨run', hrun', rfl⟩ := hrest
    rw [List.append_nil]
    exact ⟨run' ++ after.toList, List.forall_mem_append.2 ⟨hrun', hafter⟩, by simp⟩
  have hderives := hlocal _ fun _ => hend.stops stops_nil
  rw [← List.append_assoc] at hderives
  exact ⟨_, hderives.behind_blanks nofun (hbefore.blanks _), hend⟩

/-- A rule that may be put in parentheses stays the same rule in them; any number of such groups
under one operator is the balanced tree of their rules, and blanks around a rule change nothing. -/
theorem parse_composed :
    (∀ text e, Encloses text e → Expr.parse ("(" ++ text ++ ")") = .ok e) ∧
      (∀ text es, Joined .and text es →
        ∃ tree, Balanced .and es tree ∧ Expr.parse text = .ok tree) ∧
      (∀ text es, Joined .or text es →
        ∃ tree, Balanced .or es tree ∧ Expr.parse text = .ok tree) ∧
      ∀ before text after e, IsBlank before → IsBlank after → Expr.parse text = .ok e →
        Expr.parse (before ++ text ++ after) = .ok e := by
  refine ⟨?_, fun _ _ h => h.parse false, fun _ _ h => h.parse true, ?_⟩
  · intro text e h
    rw [parse_eq_ok_iff_isRule, toList_parentheses]
    exact (h.derives []).disjunction_of_unary.isRule
  · intro before text after e hbefore hafter h
    rw [parse_eq_ok_iff_isRule] at h ⊢
    simpa using h.between_blanks hbefore hafter

/-- A field in parentheses, as many as `n`. -/
def wrapped : Nat → String
  | 0 => "a"
  | n + 1 => "(" ++ wrapped n ++ ")"

theorem isRule_wrapped (n : Nat) : IsRule n (wrapped n).toList (.flag "a") := by
  induction n with
  | zero =>
      have hname : Identifier "a" := (isName_iff "a").1 (by decide)
      have hflag := derives_flag (n := 0) hname stops_nil
      exact hflag.disjunction_of_unary.isRule
  | succ n ih =>
      rw [wrapped, toList_parentheses]
      exact (ih.parenthesized []).disjunction_of_unary.isRule

/-- Groups side by side may each open all levels there are. -/
theorem parse_composed_siblings :
    let a := Expr.flag "a"
    let group := wrapped 128
    let both := group ++ " " ++ "and" ++ "\n" ++ (group ++ "\t" ++ "&&" ++ "  " ++ group)
    let either := group ++ " " ++ "OR" ++ "\r" ++ group
    (Encloses (wrapped 127) a ∧ Expr.parse group = .ok a) ∧
      (Joined .and both [a, a, a] ∧
        ∃ tree, Balanced .and [a, a, a] tree ∧ Expr.parse both = .ok tree) ∧
      (Joined .or either [a, a] ∧
        ∃ tree, Balanced .or [a, a] tree ∧ Expr.parse either = .ok tree) ∧
      (IsBlank "\t" ∧ IsBlank " \n" ∧ Expr.parse ("\t" ++ group ++ " \n") = .ok a) := by
  intro a group both either
  have ha : Encloses (wrapped 127) a :=
    ⟨(parse_eq_ok_iff_isRule _ _).2 ((isRule_wrapped 127).deeper (by decide)), a,
      (parse_eq_ok_iff_isRule _ _).2 (isRule_wrapped 128)⟩
  have hboth : Joined .and both [a, a, a] :=
    .more ha (by decide) (by decide) (by decide)
      (.more ha (by decide) (by decide) (by decide) (.one ha))
  have heither : Joined .or either [a, a] :=
    .more ha (by decide) (by decide) (by decide) (.one ha)
  have hgroup := parse_composed.1 _ _ ha
  refine ⟨⟨ha, hgroup⟩, ⟨hboth, parse_composed.2.1 _ _ hboth⟩,
    ⟨heither, parse_composed.2.2.1 _ _ heither⟩, by decide, by decide, ?_⟩
  exact parse_composed.2.2.2 _ _ _ _ (by decide) (by decide) hgroup

end Grammar

end RecordRules
