import Mathlib.Algebra.Group.Nat.Defs
import RecordRules.Proofs.Grammar.Depth

/-!
Chains of one operator as trees over their operands.  Halving keeps the operands in their order,
has an operand on either side of every cut, and gives a tree than which none is lower.
-/

namespace RecordRules

/-- A binary tree with operands at its leaves, whatever these are themselves. -/
inductive OperandTree where
  | operand (e : Expr)
  | joined (left right : OperandTree)

namespace OperandTree

def operands : OperandTree → List Expr
  | .operand e => [e]
  | .joined left right => left.operands ++ right.operands

/-- The number of joints on the longest path from the root to an operand. -/
def height : OperandTree → Nat
  | .operand _ => 0
  | .joined left right => 1 + max left.height right.height

/-- The expression with one operator at all joints. -/
def toExpr (join : Expr → Expr → Expr) : OperandTree → Expr
  | .operand e => e
  | .joined left right => join (left.toExpr join) (right.toExpr join)

/-- With each step up, a tree can have twice as many operands. -/
theorem length_operands_le (t : OperandTree) : t.operands.length ≤ 2 ^ t.height := by
  induction t with
  | operand e => simp [operands, height]
  | joined left right ihl ihr =>
      have hl : 2 ^ left.height ≤ 2 ^ max left.height right.height :=
        Nat.pow_le_pow_right (by decide) (Nat.le_max_left _ _)
      have hr : 2 ^ right.height ≤ 2 ^ max left.height right.height :=
        Nat.pow_le_pow_right (by decide) (Nat.le_max_right _ _)
      calc (operands (.joined left right)).length
          = left.operands.length + right.operands.length := List.length_append
        _ ≤ 2 ^ max left.height right.height + 2 ^ max left.height right.height := by omega
        _ = 2 ^ height (.joined left right) := by
            rw [height, Nat.pow_add, Nat.pow_one, Nat.two_mul]

/-- No tree over these operands is lower than the logarithm of their number. -/
theorem clog_length_operands_le (t : OperandTree) : Nat.clog 2 t.operands.length ≤ t.height :=
  (Nat.clog_le_iff_le_pow (by decide)).2 t.length_operands_le

end OperandTree

/-- Under every operator, a chain has the shape of one tree over its operands. -/
theorem exists_operandTree (first : Expr) (rest : List Expr) :
    ∃ tree : OperandTree, tree.operands = first :: rest ∧
      tree.height = Nat.clog 2 (rest.length + 1) ∧
      ∀ join, balance join first rest = tree.toExpr join := by
  induction first, rest using balance.induct with
  | case1 first =>
      refine ⟨.operand first, rfl, ?_, ?_⟩
      · simp [OperandTree.height]
      · intro join
        exact balance_nil join first
  | case2 first second others left next right hhalves ihl ihr =>
      obtain ⟨_, _, _, hhalves', hsplit, hlength⟩ := exists_halves (List.cons_ne_nil second others)
      cases hhalves'.symm.trans hhalves
      obtain ⟨tree, hoperands, hheight, htree⟩ := ihl
      obtain ⟨tree', hoperands', hheight', htree'⟩ := ihr
      have hmono : Nat.clog 2 (right.length + 1) ≤ Nat.clog 2 (left.length + 1) :=
        Nat.clog_mono_right 2 (by omega)
      have hstep : Nat.clog 2 ((left.length + 1) + (right.length + 1)) =
          Nat.clog 2 (left.length + 1) + 1 :=
        Grammar.clog_add (by omega) (by omega)
      have hcount : (second :: others).length + 1 = (left.length + 1) + (right.length + 1) := by
        rw [hsplit, List.length_append, List.length_cons]
        omega
      refine ⟨.joined tree tree', ?_, ?_, ?_⟩
      · rw [OperandTree.operands, hoperands, hoperands', hsplit, List.cons_append]
      · rw [OperandTree.height, hheight, hheight', hcount, hstep]
        omega
      · intro join
        rw [balance_of_halves hhalves, htree, htree', OperandTree.toExpr]
  | case3 first second others left hhalves =>
      obtain ⟨_, _, _, hhalves', -⟩ := exists_halves (List.cons_ne_nil second others)
      cases hhalves'.symm.trans hhalves

/-- A chain is the tree of its operands in their order, with its operator at every joint, and as
low as such a tree can be.  Wherever it is cut, there are operands on both sides. -/
theorem balance_least_height (first : Expr) (rest : List Expr) :
    (∃ tree : OperandTree, tree.operands = first :: rest ∧
      tree.height = Nat.clog 2 (rest.length + 1) ∧
      (∀ other : OperandTree, other.operands = first :: rest → tree.height ≤ other.height) ∧
      ∀ join, balance join first rest = tree.toExpr join) ∧
    (rest ≠ [] → ∃ left next right, halves rest = (left, next :: right) ∧
      rest = left ++ next :: right ∧
      ∀ join, balance join first rest =
        join (balance join first left) (balance join next right)) := by
  constructor
  · obtain ⟨tree, hoperands, hheight, htree⟩ := exists_operandTree first rest
    refine ⟨tree, hoperands, hheight, ?_, htree⟩
    intro other hother
    have hleast := other.clog_length_operands_le
    rw [hother, List.length_cons] at hleast
    rw [hheight]
    exact hleast
  · intro hrest
    obtain ⟨left, next, right, hhalves, hsplit, -⟩ := exists_halves hrest
    refine ⟨left, next, right, hhalves, hsplit, ?_⟩
    intro join
    exact balance_of_halves hhalves join first

/-- Of three operands the first two are joined first. -/
theorem balance_least_height_three :
    let rest := [Expr.flag "b", .flag "c"]
    rest ≠ [] ∧ halves rest = ([.flag "b"], [.flag "c"]) ∧
      balance .or (.flag "a") rest = .or (.or (.flag "a") (.flag "b")) (.flag "c") := by
  have hrest : [Expr.flag "b", .flag "c"] ≠ [] := by decide
  have hcut : halves [Expr.flag "b", .flag "c"] = ([.flag "b"], [.flag "c"]) := rfl
  have hcut' : halves [Expr.flag "b"] = ([], [.flag "b"]) := rfl
  obtain ⟨left, next, right, hhalves, -, htree⟩ :=
    (balance_least_height (.flag "a") [.flag "b", .flag "c"]).2 hrest
  rw [hcut, Prod.mk.injEq, List.cons.injEq] at hhalves
  obtain ⟨rfl, rfl, rfl⟩ := hhalves
  refine ⟨hrest, hcut, ?_⟩
  rw [htree .or, balance_of_halves hcut', balance_nil, balance_nil, balance_nil]

end RecordRules
