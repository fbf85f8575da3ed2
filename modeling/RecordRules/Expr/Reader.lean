import RecordRules.Expr.Balance
import RecordRules.Text.Reader
import RecordRules.Value.Literal

/-!
Reading rule text: `or` binds weakest, then `and`, then negation.  An operand is read with
an allowance of nesting levels, of which each open parenthesis and each negation around it
takes one.  A chain of one operator becomes a balanced tree.
-/

namespace RecordRules

/-- What would have fitted where reading failed. -/
inductive Wanted where
  | fieldName
  | literal
  | closing
  | expression
deriving DecidableEq

/-- Why reading failed: no level of nesting was left, or the rest of the text does not begin
with anything that fits. -/
inductive Failure where
  | tooDeep
  | unexpected (rest : List Char) (wanted : List Wanted)
deriving DecidableEq

def Failure.within : Failure → Failure
  | .tooDeep => .tooDeep
  | .unexpected rest wanted => .unexpected rest (wanted ++ [.expression])

/-- An operator between two operands, with the blanks in front of it. -/
def Operator.separator (op : Operator) : Separator where
  after? text := op.after? (Lexeme.skipBlank text)
  shorter h := Nat.lt_of_lt_of_le (length_of_after? h) (Lexeme.length_skipBlank_le _)

namespace Expr

abbrev Reading := Except Failure (Expr × List Char)

/-- The reader of a chain of operands under one operator. -/
def chain (operand : Reader Failure Expr) (op : Operator) (join : Expr → Expr → Expr) :
    Reader Failure Expr :=
  (operand.separated op.separator).map fun (first, others) => balance join first others

/-- The reader of whole expressions over these operands. -/
def expression (operand : Reader Failure Expr) : Reader Failure Expr :=
  chain (chain operand .and .and) .or .or

/-- Reads a comparison or a bare field.  Behind `==` there must be a literal. -/
def readLeaf (text : List Char) : Reading :=
  match Lexeme.name? text with
  | none => .error (.unexpected text [.fieldName])
  | some (field, rest) =>
      match Lexeme.after? ['=', '='] (Lexeme.skipBlank rest) with
      | none => .ok (.flag (String.ofList field), rest)
      | some behind =>
          match Literal.read? (Lexeme.skipBlank behind) with
          | none => .error (.unexpected (Lexeme.skipBlank behind) [.literal])
          | some (value, rest) => .ok (.eq (String.ofList field) value, rest)

def readGroup (inside : Reader Failure Expr) (text : List Char) : Reading :=
  match inside.read text with
  | .error failure => .error failure
  | .ok (e, rest) =>
      match Lexeme.after? [')'] (Lexeme.skipBlank rest) with
      | none => .error (.unexpected (Lexeme.skipBlank rest) [.closing])
      | some rest => .ok (e, rest)

/-- Reads a group, whose operands `deeper` reads, or a leaf. -/
def readPrimary (deeper : Reader Failure Expr) (text : List Char) : Reading :=
  let reading :=
    match Lexeme.after? ['('] text with
    | some rest => readGroup (expression deeper) rest
    | none => readLeaf text
  match reading with
  | .error failure => .error failure.within
  | .ok found => .ok found

/-- Reads a negation, whose operand `deeper` reads, or a group or a leaf. -/
def readOperand (deeper : Reader Failure Expr) (text : List Char) : Reading :=
  match Operator.not.after? (Lexeme.skipBlank text) with
  | some behind =>
      match deeper.read behind with
      | .error failure => .error failure
      | .ok (e, rest) => .ok (.not e, rest)
  | none => readPrimary deeper (Lexeme.skipBlank text)

theorem length_of_readLeaf {text rest : List Char} {e : Expr}
    (h : readLeaf text = .ok (e, rest)) : rest.length < text.length := by
  unfold readLeaf at h
  split at h
  · cases h
  · next field behind hname =>
      have hbehind := Lexeme.length_of_name? hname
      split at h
      · cases h
        exact hbehind
      · next literal heq =>
          have heq := Lexeme.length_of_after? heq
          have hblank := Lexeme.length_skipBlank_le behind
          have hblank' := Lexeme.length_skipBlank_le literal
          split at h
          · cases h
          · next hvalue =>
              cases h
              have := Literal.length_of_read? hvalue
              omega

theorem length_of_readGroup {inside : Reader Failure Expr} {text rest : List Char} {e : Expr}
    (h : readGroup inside text = .ok (e, rest)) : rest.length < text.length := by
  unfold readGroup at h
  split at h
  · cases h
  · next e' behind hread =>
      have hbehind := inside.shorter hread
      have hblank := Lexeme.length_skipBlank_le behind
      split at h
      · cases h
      · next hclosing =>
          cases h
          have := Lexeme.length_of_after? hclosing
          omega

theorem length_of_readPrimary {deeper : Reader Failure Expr} {text rest : List Char} {e : Expr}
    (h : readPrimary deeper text = .ok (e, rest)) : rest.length < text.length := by
  unfold readPrimary at h
  simp only at h
  split at h
  · cases h
  · next found hfound =>
      cases h
      split at hfound
      · next behind hopen =>
          have := length_of_readGroup hfound
          have := Lexeme.length_of_after? hopen
          omega
      · exact length_of_readLeaf hfound

theorem length_of_readOperand {deeper : Reader Failure Expr} {text rest : List Char} {e : Expr}
    (h : readOperand deeper text = .ok (e, rest)) : rest.length < text.length := by
  have hblank := Lexeme.length_skipBlank_le text
  unfold readOperand at h
  split at h
  · next behind hnot =>
      have hbehind := Operator.length_of_after? hnot
      split at h
      · cases h
      · next hread =>
          cases h
          have := deeper.shorter hread
          omega
  · have := length_of_readPrimary h
    omega

/-- The reader of operands with an allowance of levels, of which the operand is one. -/
def operand : (levels : Nat) → Reader Failure Expr
  | 0 => .fail .tooDeep
  | levels + 1 => ⟨readOperand (operand levels), length_of_readOperand⟩

end Expr

end RecordRules
