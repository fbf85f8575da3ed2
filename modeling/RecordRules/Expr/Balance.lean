import RecordRules.Expr

/-!
Chains of one operator as trees.  A chain is halved, with the longer half on the left, and
each half is treated alike: the operands keep their order and the tree stays shallow.
-/

namespace RecordRules

/-- The operands behind the first of a chain, cut in two.  With the first one in front, the left
part is as long as the right one or longer by one operand. -/
def halves (rest : List Expr) : List Expr × List Expr :=
  rest.splitAt ((rest.length + 2) / 2 - 1)

theorem halves_eq (rest : List Expr) :
    halves rest = (rest.take (rest.length / 2), rest.drop (rest.length / 2)) := by
  have hsize : (rest.length + 2) / 2 - 1 = rest.length / 2 := by
    omega
  rw [halves, hsize, List.splitAt_eq]

theorem length_of_halves {rest left right : List Expr} (h : halves rest = (left, right)) :
    left.length = rest.length / 2 ∧ left.length + right.length = rest.length := by
  rw [halves_eq, Prod.mk.injEq] at h
  obtain ⟨rfl, rfl⟩ := h
  simp only [List.length_take, List.length_drop]
  omega

/-- The tree of the operands `first` and `rest` under one binary operator.  If there were no
operand in the right half, the tree would be that of the left half. -/
def balance (join : Expr → Expr → Expr) (first : Expr) : (rest : List Expr) → Expr
  | [] => first
  | second :: others =>
      match _ : halves (second :: others) with
      | (left, next :: right) => join (balance join first left) (balance join next right)
      | (left, []) => balance join first left
termination_by rest => rest.length
decreasing_by
  all_goals
    have hlength := length_of_halves ‹halves _ = _›
    simp only [List.length_cons] at *
    omega

/-- A chain of one operand is the operand. -/
theorem balance_nil (join : Expr → Expr → Expr) (first : Expr) : balance join first [] = first := by
  rw [balance]

/-- Behind the first of several operands, there is always one for the right half. -/
theorem exists_halves {rest : List Expr} (h : rest ≠ []) :
    ∃ left next right, halves rest = (left, next :: right) ∧ rest = left ++ next :: right ∧
      (left.length = right.length ∨ left.length = right.length + 1) := by
  have hpos := List.length_pos_iff.2 h
  obtain ⟨hleft, hboth⟩ := length_of_halves (halves_eq rest)
  cases hright : rest.drop (rest.length / 2) with
  | nil =>
      rw [hright, List.length_nil] at hboth
      omega
  | cons next right =>
      rw [hright, List.length_cons] at hboth
      refine ⟨rest.take (rest.length / 2), next, right, ?_, ?_, by omega⟩
      · rw [halves_eq, hright]
      · rw [← hright, List.take_append_drop]

theorem balance_of_halves {rest left right : List Expr} {next : Expr}
    (h : halves rest = (left, next :: right)) (join : Expr → Expr → Expr) (first : Expr) :
    balance join first rest = join (balance join first left) (balance join next right) := by
  cases rest with
  | nil => cases h
  | cons second others =>
      rw [balance]
      split
      · next h' =>
          cases h'.symm.trans h
          rfl
      · next h' => cases h'.symm.trans h

end RecordRules
