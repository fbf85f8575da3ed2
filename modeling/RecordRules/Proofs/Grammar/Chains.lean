import RecordRules.Proofs.Connective
import RecordRules.Proofs.Grammar.Lexemes

/-!
Runs of operands under one operator: their balanced trees, and how a chain is read.
-/

namespace RecordRules

/-- The operator that stands for the connective. -/
def Operator.connecting : Bool → Operator
  | false => .and
  | true => .or

namespace Grammar

/-- The phrases that are chains of the connective. -/
def Symbol.chainOf : Bool → Symbol
  | false => .conjunction
  | true => .disjunction

/-- The phrases that a chain of the connective joins. -/
def Symbol.operandOf : Bool → Symbol
  | false => .unary
  | true => .conjunction

theorem Derives.chain (settling : Bool) {n : Nat} {text mid rest : List Char} {e tree : Expr}
    {es : List Expr} (hfirst : Derives (.operandOf settling) n text e mid)
    (hothers : Repeats (.connecting settling) (.operandOf settling) n mid es rest)
    (hbalanced : Balanced (Expr.connective settling) (e :: es) tree) :
    Derives (.chainOf settling) n text tree rest := by
  cases settling with
  | false => exact .conjunction hfirst hothers hbalanced
  | true => exact .disjunction hfirst hothers hbalanced

/-- A chain that is put together from halves is cut between them. -/
theorem halves_append {left right : List Expr} (next : Expr)
    (h : left.length = right.length ∨ left.length = right.length + 1) :
    halves (left ++ next :: right) = (left, next :: right) := by
  have hsize : (left ++ next :: right).length / 2 = left.length := by
    simp only [List.length_append, List.length_cons]
    omega
  rw [halves_eq, hsize, List.take_left, List.drop_left]

/-- Halving a chain is taking its balanced tree apart. -/
theorem balance_append (join : Expr → Expr → Expr) (first next : Expr) (left right : List Expr)
    (h : left.length = right.length ∨ left.length = right.length + 1) :
    balance join first (left ++ next :: right) =
      join (balance join first left) (balance join next right) :=
  balance_of_halves (halves_append next h) join first

theorem Balanced.ne_nil {join : Expr → Expr → Expr} {es : List Expr} {tree : Expr}
    (h : Balanced join es tree) : es ≠ [] := by
  induction h with
  | one => simp
  | halves _ _ _ ih _ => simp [ih]

theorem balanced_balance (join : Expr → Expr → Expr) (first : Expr) (rest : List Expr) :
    Balanced join (first :: rest) (balance join first rest) := by
  fun_induction balance join first rest with
  | case1 first => exact .one first
  | case2 first second others left next right hhalves ihl ihr =>
      obtain ⟨_, _, _, hhalves', hsplit, hlength⟩ := exists_halves (List.cons_ne_nil second others)
      cases hhalves'.symm.trans hhalves
      rw [hsplit]
      exact .halves (by simpa using hlength) ihl ihr
  | case3 first second others left hhalves =>
      obtain ⟨_, _, _, hhalves', -⟩ := exists_halves (List.cons_ne_nil second others)
      cases hhalves'.symm.trans hhalves

/-- The balanced tree of a run of operands is the one that `balance` builds. -/
theorem Balanced.eq_balance {join : Expr → Expr → Expr} {es : List Expr} {tree : Expr}
    (h : Balanced join es tree) {first : Expr} {rest : List Expr} (hes : es = first :: rest) :
    tree = balance join first rest := by
  induction h generalizing first rest with
  | one e =>
      cases hes
      exact (balance_nil join e).symm
  | @halves left right a b hlength hleft hright ihl ihr =>
      obtain ⟨head, tail, rfl⟩ := List.exists_cons_of_ne_nil hleft.ne_nil
      obtain ⟨next, others, rfl⟩ := List.exists_cons_of_ne_nil hright.ne_nil
      rw [List.cons_append, List.cons.injEq] at hes
      obtain ⟨rfl, rfl⟩ := hes
      rw [ihl rfl, ihr rfl, balance_append]
      simpa using hlength

theorem balanced_iff (join : Expr → Expr → Expr) (first : Expr) (rest : List Expr)
    (tree : Expr) : Balanced join (first :: rest) tree ↔ tree = balance join first rest := by
  constructor
  · intro h
    exact h.eq_balance rfl
  · rintro rfl
    exact balanced_balance join first rest

section Reading

variable {α β : Type} {f : List Char → Except Failure (α × List Char)}
  {g : α → List Char → Except Failure (β × List Char)} {text : List Char}

/-- Reads one thing, and behind it another one that may depend on it. -/
def andThen (f : List Char → Except Failure (α × List Char))
    (g : α → List Char → Except Failure (β × List Char)) (text : List Char) :
    Except Failure (β × List Char) :=
  match f text with
  | .error failure => .error failure
  | .ok (a, rest) => g a rest

theorem andThen_eq_ok_iff {found : β × List Char} :
    andThen f g text = .ok found ↔
      ∃ a rest, f text = .ok (a, rest) ∧ g a rest = .ok found := by
  rw [andThen]
  rcases f text with failure | ⟨a, rest⟩ <;> simp [and_assoc]

theorem andThen_eq_error_iff {failure : Failure} :
    andThen f g text = .error failure ↔
      f text = .error failure ∨
        ∃ a rest, f text = .ok (a, rest) ∧ g a rest = .error failure := by
  rw [andThen]
  rcases f text with failure' | ⟨a, rest⟩ <;> simp [and_assoc]

end Reading

theorem read_chain_eq (operand : Reader Failure Expr) (op : Operator)
    (join : Expr → Expr → Expr) : (Expr.chain operand op join).read =
      andThen operand.read fun first =>
        andThen (operand.more op.separator []) fun others text =>
          .ok (balance join first others, text) := by
  funext text
  unfold Expr.chain Reader.map Reader.separated andThen
  dsimp only
  rcases operand.read text with _ | ⟨first, rest⟩
  · rfl
  · dsimp only
    cases operand.more op.separator [] rest <;> rfl

/-- A chain is read as a first operand and the operands behind its separators. -/
theorem read_chain_eq_ok_iff (operand : Reader Failure Expr) (op : Operator)
    (join : Expr → Expr → Expr) (text : List Char) (tree : Expr) (rest : List Char) :
    (Expr.chain operand op join).read text = .ok (tree, rest) ↔
      ∃ first mid others, operand.read text = .ok (first, mid) ∧
        operand.more op.separator [] mid = .ok (others, rest) ∧
          Balanced join (first :: others) tree := by
  simp only [read_chain_eq, andThen_eq_ok_iff, balanced_iff]
  constructor
  · rintro ⟨first, mid, hfirst, others, _, hothers, ⟨⟩⟩
    exact ⟨first, mid, others, hfirst, hothers, rfl⟩
  · rintro ⟨first, mid, others, hfirst, hothers, rfl⟩
    exact ⟨first, mid, hfirst, others, rest, hothers, rfl⟩

/-- A chain fails inside its first operand, or behind one of its operators. -/
theorem read_chain_eq_error_iff (operand : Reader Failure Expr) (op : Operator)
    (join : Expr → Expr → Expr) (text : List Char) (failure : Failure) :
    (Expr.chain operand op join).read text = .error failure ↔
      operand.read text = .error failure ∨
        ∃ first mid, operand.read text = .ok (first, mid) ∧
          operand.more op.separator [] mid = .error failure := by
  simp [read_chain_eq, andThen_eq_error_iff]

theorem separator_eq_some_iff (op : Operator) (text behind : List Char) :
    op.separator.after? text = some behind ↔
      ∃ sign, Blanks text sign ∧ Sign op sign behind := by
  change op.after? (Lexeme.skipBlank text) = some behind ↔ _
  rw [after?_eq_some_iff]
  constructor
  · intro h
    exact ⟨Lexeme.skipBlank text, blanks_skipBlank text, h⟩
  · rintro ⟨sign, hblanks, hsign⟩
    rwa [hblanks.skipBlank_of_sign hsign]

end Grammar

end RecordRules
