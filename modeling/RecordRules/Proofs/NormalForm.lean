import RecordRules.Proofs.Evaluation

/-!
Predicates as normal forms of rules.  Two expressions have the same predicate exactly if one
becomes the other by regrouping the operands of chains and by adding or dropping double negations.
-/

namespace RecordRules

/-- The expressions that differ only in how the operands of chains are grouped and in double
negations, anywhere in the tree. -/
inductive Expr.Regrouped : Expr → Expr → Prop
  | refl (a : Expr) : Regrouped a a
  | symm {a b : Expr} : Regrouped a b → Regrouped b a
  | trans {a b c : Expr} : Regrouped a b → Regrouped b c → Regrouped a c
  | and {a a' b b' : Expr} : Regrouped a a' → Regrouped b b' → Regrouped (.and a b) (.and a' b')
  | or {a a' b b' : Expr} : Regrouped a a' → Regrouped b b' → Regrouped (.or a b) (.or a' b')
  | not {a a' : Expr} : Regrouped a a' → Regrouped (.not a) (.not a')
  | and_assoc (a b c : Expr) : Regrouped (.and (.and a b) c) (.and a (.and b c))
  | or_assoc (a b c : Expr) : Regrouped (.or (.or a b) c) (.or a (.or b c))
  | not_not (a : Expr) : Regrouped (.not (.not a)) a

namespace NormalForm

/-- No node stands directly under one of its own sort, and a node with parts has two at least. -/
inductive IsNormal : NormalForm → Prop
  | eq (field : String) (value : Value) : IsNormal (.eq field value)
  | flag (field : String) : IsNormal (.flag field)
  | all {parts : List NormalForm} :
      2 ≤ parts.length → (∀ inner, .all inner ∉ parts) → (∀ p ∈ parts, IsNormal p) →
        IsNormal (.all parts)
  | any {parts : List NormalForm} :
      2 ≤ parts.length → (∀ inner, .any inner ∉ parts) → (∀ p ∈ parts, IsNormal p) →
        IsNormal (.any parts)
  | not {operand : NormalForm} :
      (∀ inner, operand ≠ .not inner) → IsNormal operand → IsNormal (.not operand)

/-! ### The operations that build normal forms -/

theorem IsNormal.node {settling : Bool} {parts : List NormalForm} (hlength : 2 ≤ parts.length)
    (hflat : ∀ inner, NormalForm.node settling inner ∉ parts) (hparts : ∀ p ∈ parts, p.IsNormal) :
    (NormalForm.node settling parts).IsNormal := by
  cases settling with
  | false => exact .all hlength hflat hparts
  | true => exact .any hlength hflat hparts

theorem IsNormal.of_node {settling : Bool} {parts : List NormalForm}
    (h : (NormalForm.node settling parts).IsNormal) :
    2 ≤ parts.length ∧ (∀ inner, NormalForm.node settling inner ∉ parts) ∧
      ∀ p ∈ parts, p.IsNormal := by
  cases settling with
  | false =>
      rcases h with _ | _ | ⟨hlength, hflat, hparts⟩ | _ | _
      exact ⟨hlength, hflat, hparts⟩
  | true =>
      rcases h with _ | _ | _ | ⟨hlength, hflat, hparts⟩ | _
      exact ⟨hlength, hflat, hparts⟩

section Operations

variable {p q : NormalForm}

/-- Under either connective a normal tree has a part, and only normal parts that are no nodes of
this connective. -/
theorem IsNormal.partsOf (h : p.IsNormal) (settling : Bool) :
    0 < (p.partsOf settling).length ∧
      (∀ inner, NormalForm.node settling inner ∉ p.partsOf settling) ∧
        ∀ part ∈ p.partsOf settling, part.IsNormal := by
  rcases eq_node_or settling p with ⟨parts, rfl⟩ | hother
  · rw [partsOf_node]
    obtain ⟨hlength, hflat, hparts⟩ := h.of_node
    exact ⟨by omega, hflat, hparts⟩
  · rw [partsOf_eq_singleton hother]
    refine ⟨Nat.one_pos, ?_, List.forall_mem_singleton.2 h⟩
    intro inner hinner
    exact hother inner (List.mem_singleton.1 hinner).symm

theorem isNormal_node_append (settling : Bool) (hp : p.IsNormal) (hq : q.IsNormal) :
    (NormalForm.node settling (p.partsOf settling ++ q.partsOf settling)).IsNormal := by
  obtain ⟨hppos, hpflat, hpparts⟩ := hp.partsOf settling
  obtain ⟨hqpos, hqflat, hqparts⟩ := hq.partsOf settling
  apply IsNormal.node
  · rw [List.length_append]
    omega
  · intro inner
    rw [List.mem_append, not_or]
    exact ⟨hpflat inner, hqflat inner⟩
  · exact List.forall_mem_append.2 ⟨hpparts, hqparts⟩

theorem IsNormal.negate (h : p.IsNormal) : p.negate.IsNormal := by
  have hp := h
  rcases h with _ | _ | _ | _ | ⟨_, hoperand⟩
  case not => exact hoperand
  all_goals exact IsNormal.not nofun hp

/-- Two negations cancel, since what a negation of a normal form leaves is no negation. -/
theorem IsNormal.negate_negate (h : p.IsNormal) : p.negate.negate = p := by
  rcases h with _ | _ | _ | _ | @⟨operand, hoperand, _⟩
  case not =>
    cases operand with
    | not inner => exact absurd rfl (hoperand inner)
    | _ => rfl
  all_goals rfl

end Operations

end NormalForm

theorem Expr.isNormal_normalForm (e : Expr) : e.normalForm.IsNormal := by
  induction e using connective_induction with
  | eq field value => exact .eq field value
  | flag field => exact .flag field
  | connective settling left right ihl ihr =>
      rw [normalForm_connective]
      exact NormalForm.isNormal_node_append settling ihl ihr
  | not operand ih => exact ih.negate

/-! ### Regrouping changes no predicate -/

namespace Expr.Regrouped

variable {a b : Expr}

theorem normalForm_eq (h : a.Regrouped b) : a.normalForm = b.normalForm := by
  induction h with
  | refl a => rfl
  | symm _ ih => exact ih.symm
  | trans _ _ ih ih' => exact ih.trans ih'
  | and _ _ ih ih' | or _ _ ih ih' => rw [normalForm, normalForm, ih, ih']
  | not _ ih => rw [normalForm, normalForm, ih]
  | and_assoc a b c => simp only [normalForm, NormalForm.conjuncts, List.append_assoc]
  | or_assoc a b c => simp only [normalForm, NormalForm.disjuncts, List.append_assoc]
  | not_not a => exact a.isNormal_normalForm.negate_negate

theorem connective {a' b' : Expr} (settling : Bool) (ha : a.Regrouped a') (hb : b.Regrouped b') :
    (Expr.connective settling a b).Regrouped (Expr.connective settling a' b') := by
  cases settling with
  | false => exact .and ha hb
  | true => exact .or ha hb

theorem connective_assoc (settling : Bool) (a b c : Expr) :
    (Expr.connective settling (Expr.connective settling a b) c).Regrouped
      (Expr.connective settling a (Expr.connective settling b c)) := by
  cases settling with
  | false => exact .and_assoc a b c
  | true => exact .or_assoc a b c

theorem names_eq (h : a.Regrouped b) : a.names = b.names := by
  induction h with
  | refl a => rfl
  | symm _ ih => exact ih.symm
  | trans _ _ ih ih' => exact ih.trans ih'
  | and _ _ ih ih' | or _ _ ih ih' => rw [names, names, ih, ih']
  | not _ ih => exact ih
  | and_assoc a b c | or_assoc a b c => simp only [names, List.append_assoc]
  | not_not a => rfl

end Expr.Regrouped

/-! ### Reading a normal form back -/

namespace NormalForm

mutual

/-- An expression with this normal form. -/
def toExpr : NormalForm → Expr
  | .eq field value => .eq field value
  | .flag field => .flag field
  | .all parts => joined .and parts
  | .any parts => joined .or parts
  | .not operand => .not operand.toExpr

/-- The parts under one binary operator, grouped to the right.  Normal forms have no node
without parts, for which any expression would do. -/
def joined (join : Expr → Expr → Expr) : List NormalForm → Expr
  | [] => .flag ""
  | [part] => part.toExpr
  | part :: next :: parts => join part.toExpr (joined join (next :: parts))

end

section Joined

variable (settling : Bool)

/-- It does not matter where a list of parts is divided. -/
theorem joined_append {parts more : List NormalForm} (hparts : 0 < parts.length)
    (hmore : 0 < more.length) :
    (joined (Expr.connective settling) (parts ++ more)).Regrouped
      (Expr.connective settling (joined (Expr.connective settling) parts)
        (joined (Expr.connective settling) more)) := by
  induction parts with
  | nil => contradiction
  | cons part parts ih =>
      rcases parts with _ | ⟨next, parts⟩
      · rcases more with _ | ⟨first, more⟩
        · contradiction
        · rw [List.cons_append, List.nil_append, joined, joined]
          exact .refl _
      · rw [List.cons_append, List.cons_append, joined, joined]
        exact .trans (.connective settling (.refl _) (ih (Nat.succ_pos _)))
          (.symm (.connective_assoc settling _ _ _))

theorem toExpr_node (parts : List NormalForm) :
    (node settling parts).toExpr = joined (Expr.connective settling) parts := by
  cases settling <;> rw [node, toExpr, Expr.connective]

theorem joined_partsOf (p : NormalForm) :
    joined (Expr.connective settling) (p.partsOf settling) = p.toExpr := by
  rcases eq_node_or settling p with ⟨parts, rfl⟩ | hother
  · rw [partsOf_node, toExpr_node]
  · rw [partsOf_eq_singleton hother, joined]

end Joined

theorem regrouped_toExpr_negate (p : NormalForm) :
    p.negate.toExpr.Regrouped (.not p.toExpr) := by
  cases p with
  | not operand =>
      rw [negate, toExpr]
      exact .symm (.not_not _)
  | _ =>
      rw [negate, toExpr]
      · exact .refl _
      · simp

end NormalForm

namespace Expr

/-- An expression is regrouped into what its normal form is read back as. -/
theorem regrouped_toExpr_normalForm (e : Expr) : e.normalForm.toExpr.Regrouped e := by
  induction e using connective_induction with
  | eq field value | flag field =>
      rw [normalForm, NormalForm.toExpr]
      exact .refl _
  | connective settling left right ihl ihr =>
      have happend := NormalForm.joined_append settling
        (left.isNormal_normalForm.partsOf settling).1 (right.isNormal_normalForm.partsOf settling).1
      rw [NormalForm.joined_partsOf, NormalForm.joined_partsOf] at happend
      rw [normalForm_connective, NormalForm.toExpr_node]
      exact happend.trans (.connective settling ihl ihr)
  | not operand ih =>
      rw [normalForm]
      exact (NormalForm.regrouped_toExpr_negate _).trans (.not ih)

theorem normalForm_eq_iff_regrouped (a b : Expr) :
    a.normalForm = b.normalForm ↔ a.Regrouped b := by
  constructor
  · intro h
    have hb := b.regrouped_toExpr_normalForm
    rw [← h] at hb
    exact .trans (.symm a.regrouped_toExpr_normalForm) hb
  · exact Regrouped.normalForm_eq

end Expr

theorem Compiler.compileExpr_untyped (e : Expr) : untyped.compileExpr e = .ok (.ofExpr e) := rfl

/-- Without a schema two expressions compile to the same predicate exactly if they differ only in
the grouping of chains and in double negations.  The fields of the predicates differ only if their
trees do, and expressions with one predicate mean the same on every record. -/
theorem Compiler.compileExpr_eq_iff_regrouped (a b : Expr) :
    ∃ p q, untyped.compileExpr a = .ok p ∧ untyped.compileExpr b = .ok q ∧
      (p = q ↔ a.Regrouped b) ∧ (p.tree = q.tree → p.fields = q.fields) ∧
        (p = q → ∀ r, p.evaluate r = q.evaluate r ∧ a.walk r = b.walk r) := by
  have hfields : a.normalForm = b.normalForm → a.fields = b.fields := by
    intro h
    rw [Expr.fields, Expr.fields, ((a.normalForm_eq_iff_regrouped b).1 h).names_eq]
  refine ⟨.ofExpr a, .ofExpr b, compileExpr_untyped a, compileExpr_untyped b, ?_, hfields, ?_⟩
  · rw [← a.normalForm_eq_iff_regrouped b]
    constructor
    · intro h
      exact congrArg Predicate.tree h
    · intro h
      rw [Predicate.ofExpr, Predicate.ofExpr, h, hfields h]
  · intro h r
    rw [← a.eval_normalForm r, ← b.eval_normalForm r]
    exact ⟨congrArg (Predicate.evaluate · r) h, congrArg (Predicate.evaluate · r) h⟩

end RecordRules
