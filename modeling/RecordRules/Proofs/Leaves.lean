import RecordRules.Proofs.Dependence
import RecordRules.Proofs.NormalForm

/-!
What the form that is evaluated keeps of an expression.  It is normal, and every normal tree is the
form of some expression.  Read from left to right it has the leaves of the expression, none lost,
none repeated and none moved.  A predicate declares the fields at these leaves, each once and in the
order in which they first occur.
-/

namespace RecordRules

/-- The elements of a list, each once, in the order in which they first occur there. -/
structure FirstOccurrences {α : Type} [BEq α] (xs firsts : List α) : Prop where
  mem_iff : ∀ x, x ∈ firsts ↔ x ∈ xs
  nodup : firsts.Nodup
  in_order : firsts.Pairwise fun x y => xs.idxOf x < xs.idxOf y

section FirstOccurrences

variable {α : Type} [BEq α]

/-- There is one list of the first occurrences. -/
theorem FirstOccurrences.unique {xs firsts firsts' : List α} (h : FirstOccurrences xs firsts)
    (h' : FirstOccurrences xs firsts') : firsts = firsts' := by
  have hperm : firsts.Perm firsts' := by
    rw [List.perm_ext_iff_of_nodup h.nodup h'.nodup]
    intro x
    rw [h.mem_iff, h'.mem_iff]
  exact hperm.eq_of_pairwise (fun _ _ _ _ hlt hgt => absurd hgt hlt.not_gt) h.in_order h'.in_order

variable [LawfulBEq α]

/-- Elements that a filter keeps stand in the same order without it. -/
theorem idxOf_lt_of_filter {p : α → Bool} {x y : α} (hy : p y) {xs : List α}
    (h : (xs.filter p).idxOf x < (xs.filter p).idxOf y) : xs.idxOf x < xs.idxOf y := by
  induction xs with
  | nil => exact h
  | cons head xs ih =>
      by_cases hheady : head = y
      · simp [hheady, hy] at h
      by_cases hheadx : head = x
      · rw [hheadx, List.idxOf_cons_self, List.idxOf_cons_ne _ (hheadx ▸ hheady)]
        exact Nat.succ_pos _
      rw [List.idxOf_cons_ne _ hheadx, List.idxOf_cons_ne _ hheady]
      apply Nat.succ_lt_succ
      apply ih
      by_cases hhead : p head
      · rw [List.filter_cons_of_pos hhead, List.idxOf_cons_ne _ hheadx,
          List.idxOf_cons_ne _ hheady] at h
        exact Nat.lt_of_succ_lt_succ h
      · rwa [List.filter_cons_of_neg hhead] at h

theorem pairwise_idxOf_eraseDups (xs : List α) :
    xs.eraseDups.Pairwise fun x y => xs.idxOf x < xs.idxOf y := by
  match xs with
  | [] => simp
  | head :: xs =>
      have ih := pairwise_idxOf_eraseDups (xs.filter fun y => !y == head)
      have hkept : ∀ x ∈ (xs.filter fun y => !y == head).eraseDups, head ≠ x := by
        rintro x hx rfl
        simp at hx
      rw [List.eraseDups_cons, List.pairwise_cons]
      constructor
      · intro x hx
        rw [List.idxOf_cons_self, List.idxOf_cons_ne _ (hkept x hx)]
        exact Nat.succ_pos _
      · apply ih.imp_of_mem
        intro x y hx hy hlt
        rw [List.idxOf_cons_ne _ (hkept x hx), List.idxOf_cons_ne _ (hkept y hy)]
        apply Nat.succ_lt_succ
        exact idxOf_lt_of_filter (by simp [(hkept y hy).symm]) hlt
termination_by xs.length
decreasing_by
  rw [List.length_cons]
  exact Nat.lt_succ_of_le (List.length_filter_le _ _)

theorem firstOccurrences_eraseDups (xs : List α) : FirstOccurrences xs xs.eraseDups where
  mem_iff _ := List.mem_eraseDups
  nodup := (pairwise_idxOf_eraseDups xs).imp fun hlt heq => (heq ▸ hlt).ne rfl
  in_order := pairwise_idxOf_eraseDups xs

theorem firstOccurrences_iff (xs firsts : List α) :
    FirstOccurrences xs firsts ↔ firsts = xs.eraseDups := by
  constructor
  · intro h
    exact h.unique (firstOccurrences_eraseDups xs)
  · rintro rfl
    exact firstOccurrences_eraseDups xs

end FirstOccurrences

namespace NormalForm

mutual

def leaves : NormalForm → List Expr
  | .eq field value => [.eq field value]
  | .flag field => [.flag field]
  | .all parts => leavesOfParts parts
  | .any parts => leavesOfParts parts
  | .not operand => operand.leaves

def leavesOfParts : List NormalForm → List Expr
  | [] => []
  | part :: parts => part.leaves ++ leavesOfParts parts

end

/-- The fields at the leaves, left to right, one entry for each leaf. -/
def names (p : NormalForm) : List String :=
  p.leaves.flatMap Expr.names

theorem leavesOfParts_append (parts more : List NormalForm) :
    leavesOfParts (parts ++ more) = leavesOfParts parts ++ leavesOfParts more := by
  induction parts with
  | nil => rw [leavesOfParts, List.nil_append, List.nil_append]
  | cons part parts ih =>
      rw [List.cons_append, leavesOfParts, leavesOfParts, ih, List.append_assoc]

theorem leavesOfParts_singleton (p : NormalForm) : leavesOfParts [p] = p.leaves := by
  rw [leavesOfParts, leavesOfParts, List.append_nil]

theorem leaves_node (settling : Bool) (parts : List NormalForm) :
    (node settling parts).leaves = leavesOfParts parts := by
  cases settling <;> rw [node, leaves]

theorem leavesOfParts_partsOf (settling : Bool) (p : NormalForm) :
    leavesOfParts (p.partsOf settling) = p.leaves := by
  rcases eq_node_or settling p with ⟨parts, rfl⟩ | hother
  · rw [partsOf_node, leaves_node]
  · rw [partsOf_eq_singleton hother, leavesOfParts_singleton]

theorem leaves_not (operand : NormalForm) : (NormalForm.not operand).leaves = operand.leaves := by
  rw [leaves]

theorem leaves_negate (p : NormalForm) : p.negate.leaves = p.leaves := by
  cases p with
  | not operand => exact (leaves_not operand).symm
  | _ => exact leaves_not _

end NormalForm

namespace Expr

/-- Joining chains and dropping double negations leaves every leaf in its place. -/
theorem leaves_normalForm (e : Expr) : e.normalForm.leaves = e.leaves := by
  induction e using connective_induction with
  | eq field value | flag field => rw [normalForm, NormalForm.leaves, leaves]
  | connective settling left right ihl ihr =>
      rw [normalForm_connective, NormalForm.leaves_node, NormalForm.leavesOfParts_append,
        NormalForm.leavesOfParts_partsOf, NormalForm.leavesOfParts_partsOf, ihl, ihr,
        leaves_connective]
  | not operand ih => rw [normalForm, NormalForm.leaves_negate, ih, leaves]

theorem names_normalForm (e : Expr) : e.normalForm.names = e.names := by
  rw [NormalForm.names, leaves_normalForm, ← names_eq_flatMap_leaves]

end Expr

/-! ### Every normal tree is a normal form -/

namespace NormalForm

theorem negate_eq_not {p : NormalForm} (h : ∀ inner, p ≠ .not inner) : p.negate = .not p := by
  cases p with
  | not operand => exact absurd rfl (h operand)
  | _ => rfl

/-- A list of normal trees under one connective has the node over them as normal form, if none of
them is such a node itself. -/
theorem normalForm_joined (settling : Bool) {parts : List NormalForm}
    (hlength : 2 ≤ parts.length) (hflat : ∀ inner, node settling inner ∉ parts)
    (hparts : ∀ part ∈ parts, part.toExpr.normalForm = part) :
    (joined (Expr.connective settling) parts).normalForm = node settling parts := by
  have hsingle : ∀ part ∈ parts, part.toExpr.normalForm.partsOf settling = [part] := by
    intro part hpart
    rw [hparts part hpart]
    apply partsOf_eq_singleton
    rintro inner rfl
    exact hflat inner hpart
  clear hflat hparts
  induction parts with
  | nil => contradiction
  | cons part parts ih =>
      rw [List.forall_mem_cons] at hsingle
      obtain ⟨hpart, hothers⟩ := hsingle
      rcases parts with _ | ⟨next, _ | ⟨third, parts⟩⟩
      · contradiction
      · rw [joined, joined, Expr.normalForm_connective, hpart,
          hothers next (List.mem_singleton_self next)]
        rfl
      · rw [joined, Expr.normalForm_connective, hpart, ih (by simp) hothers, partsOf_node]
        rfl

/-- A normal tree that is read back has itself as normal form. -/
theorem IsNormal.normalForm_toExpr {p : NormalForm} (h : p.IsNormal) :
    p.toExpr.normalForm = p := by
  induction h with
  | eq field value | flag field => rw [toExpr, Expr.normalForm]
  | all hlength hflat _ ih =>
      rw [toExpr]
      exact normalForm_joined false hlength hflat ih
  | any hlength hflat _ ih =>
      rw [toExpr]
      exact normalForm_joined true hlength hflat ih
  | not hoperand _ ih => rw [toExpr, Expr.normalForm, ih, negate_eq_not hoperand]

end NormalForm

/-- Of every expression the form that is evaluated is normal: no node stands directly under one of
its own sort, and chains have two parts at least.  It has the leaves of the expression, in their
order.  The predicates that compilers make of the expression are just those with this tree and with
the fields at its leaves, in the order of their first occurrences.  There are no other normal
trees. -/
theorem normalForm_lossless :
    (∀ e : Expr, e.normalForm.IsNormal ∧ e.normalForm.leaves = e.leaves ∧
      ∀ p : Predicate, p.CompiledFrom e ↔
        p.tree = e.normalForm ∧ FirstOccurrences p.tree.names p.fields) ∧
    ∀ q : NormalForm, q.IsNormal ↔ ∃ e : Expr, e.normalForm = q := by
  constructor
  · intro e
    refine ⟨e.isNormal_normalForm, e.leaves_normalForm, ?_⟩
    rintro ⟨tree, fields⟩
    change _ ↔ tree = e.normalForm ∧ FirstOccurrences tree.names fields
    rw [Predicate.compiledFrom_iff, Predicate.ofExpr, Predicate.mk.injEq, firstOccurrences_iff]
    apply and_congr_right
    rintro rfl
    rw [e.names_normalForm, Expr.fields]
  · intro q
    constructor
    · intro h
      exact ⟨q.toExpr, h.normalForm_toExpr⟩
    · rintro ⟨e, rfl⟩
      exact e.isNormal_normalForm

end RecordRules
