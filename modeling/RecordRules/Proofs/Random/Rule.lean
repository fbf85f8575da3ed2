import Mathlib.Data.List.Forall2
import RecordRules.Proofs.Grammar.RoundTrip
import RecordRules.Proofs.Random.Draw
import RecordRules.Proofs.Typing
import RecordRules.Rule.Random

/-!
The shape of random rules.  Whatever the words are, a random rule has one leaf for each field that
was picked, in this order, negates leaves only, and fits its schema; a rule of few enough fields
is read back from its text.
-/

namespace RecordRules

def Schema.fieldAt (s : Schema) (i : Fin s.size) : FieldDecl :=
  s.fields.get i

theorem Schema.fieldAt_mem (s : Schema) (i : Fin s.size) : s.fieldAt i ∈ s.fields :=
  List.get_mem _ _

/-- Different places of a schema have different names. -/
theorem Schema.name_fieldAt_injective (s : Schema) :
    Function.Injective fun i => (s.fieldAt i).name := by
  intro i j hij
  have hbound : ∀ k : Fin s.size, k.val < (s.fields.map (·.name)).length := by
    intro k
    rw [List.length_map]
    exact k.isLt
  have hi := hbound i
  have hj := hbound j
  have hsame : (s.fields.map (·.name))[i.val] = (s.fields.map (·.name))[j.val] := by
    rw [List.getElem_map, List.getElem_map]
    exact hij
  exact Fin.ext ((List.Nodup.getElem_inj_iff s.nodup_names).1 hsame)

namespace RandomRules

theorem succ_le_size (s : RandomRules) (others : Fin s.leafLimit) : others + 1 ≤ s.schema.size :=
  Nat.le_trans others.isLt s.leafLimit_le

/-- The fields of a random rule, in the order in which they are picked. -/
def pick (s : RandomRules) : Draw (List FieldDecl) := do
  let others ← Draw.index s.leafLimit s.leafLimit_pos
  let picked ← Draw.sample s.schema.size (others + 1) (s.succ_le_size others)
  return picked.toList.map s.schema.fieldAt

/-- The leaves over a field.  A boolean field stands bare or is compared with either value, as
the style says; any other is compared with a value of its domain. -/
inductive IsLeaf (style : FlagStyle) (f : FieldDecl) : Expr → Prop
  | bare : f.kind = .boolean → style = .bare → IsLeaf style f (.flag f.name)
  | explicit (b : Bool) : f.kind = .boolean → style = .explicit →
      IsLeaf style f (.eq f.name (.bool b))
  | sampled {value : Value} : f.kind ≠ .boolean → value ∈ f.domain →
      IsLeaf style f (.eq f.name value)

/-- The trees over these fields, in this order, in which nothing but leaves is negated, and leaves
only if the settings let a negation happen.  The fields are split into two parts until one is
left, and neither part is empty. -/
inductive Arranges (s : RandomRules) : List FieldDecl → Expr → Prop
  | leaf {f : FieldDecl} {e : Expr} : IsLeaf s.settings.flagStyle f e → Arranges s [f] e
  | negated {f : FieldDecl} {e : Expr} :
      Draw.Possible (Draw.chance s.settings.negationChance) →
        IsLeaf s.settings.flagStyle f e → Arranges s [f] (.not e)
  | and {front back : List FieldDecl} {left right : Expr} : front ≠ [] → back ≠ [] →
      Arranges s front left → Arranges s back right → Arranges s (front ++ back) (.and left right)
  | or {front back : List FieldDecl} {left right : Expr} : front ≠ [] → back ≠ [] →
      Arranges s front left → Arranges s back right → Arranges s (front ++ back) (.or left right)

/-! ### What is drawn -/

section Drawn

variable {P : Words → Prop} (hP : Words.Lasting P) (s : RandomRules)

include hP

/-- The domain of a field that is not boolean is never empty, so a value is always found. -/
theorem yields_leaf {f : FieldDecl} (hf : f ∈ s.schema.fields) :
    Draw.Yields P (s.leaf f) (IsLeaf s.settings.flagStyle f) := by
  unfold leaf
  split
  · next hkind hstyle => exact .pure (.bare hkind hstyle)
  · next hkind hstyle =>
      apply (Draw.yields_coin hP).bind
      intro b _
      exact .pure (.explicit b hkind hstyle)
  · next hbare hexplicit =>
      have hkind : f.kind ≠ .boolean := by
        intro hkind
        cases hstyle : s.settings.flagStyle with
        | bare => exact hbare hkind hstyle
        | explicit => exact hexplicit hkind hstyle
      have hdomain : f.domain ≠ [] := mt (Schema.domain_eq_nil_iff_of_mem hf).2 hkind
      apply (Draw.yields_choose? hP hdomain).bind
      rintro _ ⟨value, hvalue, rfl⟩
      exact .pure (.sampled hkind hvalue)

theorem yields_factor {f : FieldDecl} (hf : f ∈ s.schema.fields) :
    Draw.Yields P (s.factor f) (Arranges s [f]) := by
  apply (s.yields_leaf hP hf).bind
  intro e he
  apply (Draw.yields_chance hP _).bind
  intro negated hpossible
  split
  · next hnegated => exact .pure (.negated (hpossible hnegated) he)
  · exact .pure (.leaf he)

theorem yields_arrange (first : FieldDecl) (rest : List FieldDecl)
    (hfields : ∀ f ∈ first :: rest, f ∈ s.schema.fields) :
    Draw.Yields P (s.arrange first rest) (Arranges s (first :: rest)) := by
  induction hn : rest.length using Nat.strongRecOn generalizing first rest with
  | ind n ih =>
      subst hn
      rw [arrange]
      split
      · next hrest =>
          apply (Draw.yields_index hP _ hrest).bind
          intro cut _
          have hcut := cut.isLt
          have hsplit : first :: rest =
              (first :: rest.take cut) ++ (rest[cut] :: rest.drop (cut + 1)) := by
            rw [List.cons_append, Fin.getElem_fin, ← List.drop_eq_getElem_cons hcut,
              List.take_append_drop]
          rw [hsplit] at hfields ⊢
          obtain ⟨hfront, hback⟩ := List.forall_mem_append.1 hfields
          have hleft := ih (rest.take cut).length (by rw [List.length_take]; omega) first _
            hfront rfl
          have hright := ih (rest.drop (cut + 1)).length (by rw [List.length_drop]; omega) _ _
            hback rfl
          apply hleft.bind
          intro left hleft
          apply hright.bind
          intro right hright
          apply (Draw.yields_chance hP _).bind
          intro joined _
          split
          · exact .pure (.or (List.cons_ne_nil _ _) (List.cons_ne_nil _ _) hleft hright)
          · exact .pure (.and (List.cons_ne_nil _ _) (List.cons_ne_nil _ _) hleft hright)
      · next hrest =>
          obtain rfl := List.length_eq_zero_iff.1 (Nat.eq_zero_of_not_pos hrest)
          exact s.yields_factor hP (hfields first List.mem_cons_self)

end Drawn

theorem yields_pick {P : Words → Prop} (hP : Words.Lasting P) (s : RandomRules) :
    Draw.Yields P s.pick fun picked => (1 ≤ picked.length ∧ picked.length ≤ s.leafLimit) ∧
      (∀ f ∈ picked, f ∈ s.schema.fields) ∧ (picked.map (·.name)).Nodup := by
  apply (Draw.yields_index hP _ s.leafLimit_pos).bind
  intro others _
  apply (Draw.yields_sample hP _ _ _).bind
  intro picked hpicked
  apply Draw.Yields.pure
  refine ⟨?_, ?_, ?_⟩
  · rw [List.length_map, Vector.length_toList]
    exact ⟨Nat.le_add_left 1 _, others.isLt⟩
  · intro f hf
    obtain ⟨i, -, rfl⟩ := List.mem_map.1 hf
    exact s.schema.fieldAt_mem i
  · rw [List.map_map]
    exact hpicked.map s.schema.name_fieldAt_injective

theorem toList_eq_head_cons_tail {α : Type} {n : Nat} (v : Vector α (n + 1)) :
    v.toList = v.head :: v.tail.toList := by
  have htail : v.tail.toList = v.toList.drop 1 := by
    rw [Vector.tail, Vector.toList_cast, Vector.toList_extract]
    exact List.take_of_length_le (by simp)
  have hpos : 0 < v.toList.length := by
    rw [Vector.length_toList]
    exact n.succ_pos
  have hhead : v.head = v.toList[0] := rfl
  rw [htail, hhead, ← List.drop_eq_getElem_cons, List.drop_zero]

/-- A random rule is an arrangement of the fields that are picked. -/
theorem exists_run_pick (s : RandomRules) (words : Words) :
    ∃ first rest, (s.pick.run words).1 = first :: rest ∧
      s.expr.run words = (s.arrange first rest).run (s.pick.run words).2 := by
  refine ⟨_, _, ?_, rfl⟩
  exact congrArg (List.map _) (toList_eq_head_cons_tail _)

theorem arranges_expr (s : RandomRules) (words : Words) :
    s.Arranges (s.pick.run words).1 (s.expr.run words).1 := by
  obtain ⟨first, rest, hpick, hexpr⟩ := s.exists_run_pick words
  obtain ⟨-, hfields, -⟩ := (yields_pick Words.lasting_true s words trivial).1
  rw [hpick] at hfields
  rw [hpick, hexpr]
  exact (s.yields_arrange Words.lasting_true first rest hfields _ trivial).1

/-! ### What an arrangement is -/

section Arranged

variable {s : RandomRules} {fields : List FieldDecl} {e : Expr}

theorem IsLeaf.leaves_eq {style : FlagStyle} {f : FieldDecl} (h : IsLeaf style f e) :
    e.leaves = [e] := by
  rcases h with _ | _ | _
  all_goals rfl

theorem IsLeaf.names_eq {style : FlagStyle} {f : FieldDecl} (h : IsLeaf style f e) :
    e.names = [f.name] := by
  rcases h with _ | _ | _
  all_goals rfl

/-- The leaves are those of the fields, in their order. -/
theorem Arranges.forall₂_leaves (h : s.Arranges fields e) :
    List.Forall₂ (IsLeaf s.settings.flagStyle) fields e.leaves := by
  induction h with
  | leaf he =>
      rw [he.leaves_eq]
      exact .cons he .nil
  | negated _ he =>
      rw [Expr.leaves, he.leaves_eq]
      exact .cons he .nil
  | and _ _ _ _ ihl ihr | or _ _ _ _ ihl ihr => exact List.rel_append ihl ihr

theorem Arranges.names_eq (h : s.Arranges fields e) : e.names = fields.map (·.name) := by
  induction h with
  | leaf he | negated _ he => exact he.names_eq
  | and _ _ _ _ ihl ihr | or _ _ _ _ ihl ihr => rw [Expr.names, ihl, ihr, List.map_append]

theorem IsLeaf.admits {f : FieldDecl} (hf : f ∈ s.schema.fields)
    (h : IsLeaf s.settings.flagStyle f e) : s.schema.Admits e := by
  rcases h with ⟨hkind, _⟩ | ⟨b, hkind, _⟩ | ⟨_, hvalue⟩
  · exact .flag hf hkind
  · exact .eq hf hkind.symm
  · exact .eq hf (Schema.kind_eq_of_mem_domain hf hvalue)

theorem Arranges.admits (h : s.Arranges fields e) (hfields : ∀ f ∈ fields, f ∈ s.schema.fields) :
    ∀ leaf ∈ e.leaves, s.schema.Admits leaf := by
  induction h with
  | leaf he =>
      rw [he.leaves_eq]
      exact List.forall_mem_singleton.2 (he.admits (hfields _ List.mem_cons_self))
  | negated _ he =>
      rw [Expr.leaves, he.leaves_eq]
      exact List.forall_mem_singleton.2 (he.admits (hfields _ List.mem_cons_self))
  | and _ _ _ _ ihl ihr | or _ _ _ _ ihl ihr =>
      obtain ⟨hfront, hback⟩ := List.forall_mem_append.1 hfields
      exact List.forall_mem_append.2 ⟨ihl hfront, ihr hback⟩

theorem Arranges.nameable (h : s.Arranges fields e)
    (hfields : ∀ f ∈ fields, f ∈ s.schema.fields) : e.Nameable := by
  intro name hname
  rw [h.names_eq] at hname
  obtain ⟨f, hf, rfl⟩ := List.mem_map.1 hname
  exact Schema.isName_of_mem (hfields f hf)

theorem IsLeaf.isBinary_eq {style : FlagStyle} {f : FieldDecl} (h : IsLeaf style f e) :
    e.isBinary = false := by
  rcases h with _ | _ | _
  all_goals rfl

theorem IsLeaf.writtenNesting_eq {style : FlagStyle} {f : FieldDecl} (h : IsLeaf style f e) :
    e.writtenNesting = 0 := by
  rcases h with _ | _ | _
  all_goals rfl

/-- A rule is written with one level more than it has fields, at most. -/
theorem Arranges.writtenNesting_le (h : s.Arranges fields e) :
    e.writtenNesting ≤ fields.length + 1 := by
  induction h with
  | leaf he => rw [he.writtenNesting_eq]; exact Nat.zero_le _
  | negated _ he =>
      rw [Expr.writtenNesting, he.isBinary_eq, he.writtenNesting_eq]
      exact Nat.le_refl 2
  | and hfront hback _ _ ihl ihr | or hfront hback _ _ ihl ihr =>
      have := List.length_pos_iff.2 hfront
      have := List.length_pos_iff.2 hback
      rw [Expr.writtenNesting, List.length_append]
      omega

end Arranged

/-! ### Random rules -/

/-- Whatever the words are, a random rule has one leaf for each field that was picked, in the
order of picking, and the fields are different ones of the schema, as many as the settings and the
schema allow.  It fits the schema, and with at most 127 fields it is read back from its text. -/
theorem expr_shape (s : RandomRules) (words : Words) :
    let picked := (s.pick.run words).1
    let e := (s.expr.run words).1
    (1 ≤ picked.length ∧ picked.length ≤ max 1 (min s.settings.mostLeaves s.schema.size)) ∧
      (∀ f ∈ picked, f ∈ s.schema.fields) ∧ (picked.map (·.name)).Nodup ∧
      e.names = picked.map (·.name) ∧
      List.Forall₂ (IsLeaf s.settings.flagStyle) picked e.leaves ∧ s.Arranges picked e ∧
      (Compiler.withSchema s.schema).compileExpr e = .ok (.ofExpr e) ∧
      (s.leafLimit ≤ 127 → ∀ d, Expr.parse (e.render d) = .ok e) := by
  intro picked e
  obtain ⟨⟨hlength, hfields, hnodup⟩, -⟩ := yields_pick Words.lasting_true s words trivial
  have harranges : s.Arranges picked e := s.arranges_expr words
  refine ⟨hlength, hfields, hnodup, harranges.names_eq, harranges.forall₂_leaves, harranges,
    ?_, ?_⟩
  · rw [Compiler.compileExpr, Compiler.accept_withSchema_eq_ok_iff]
    exact ⟨harranges.admits hfields, rfl⟩
  · intro hlimit d
    apply Grammar.parse_render d (harranges.nameable hfields)
    calc
      e.writtenNesting ≤ picked.length + 1 := harranges.writtenNesting_le
      _ ≤ s.leafLimit + 1 := Nat.succ_le_succ hlength.2
      _ ≤ nestingLimit := Nat.succ_le_succ hlimit

/-- The random rules of the payment workload have few fields. -/
theorem expr_shape_payments :
    let s := standard .payments 5
    let e := (s.expr.run (.ofListed #[] 7)).1
    s.leafLimit ≤ 127 ∧ Expr.parse (e.render .symbolic) = .ok e := by
  intro s e
  have hlimit : s.leafLimit ≤ 127 := by decide
  obtain ⟨-, -, -, -, -, -, -, hparse⟩ := s.expr_shape (.ofListed #[] 7)
  exact ⟨hlimit, hparse hlimit .symbolic⟩

end RandomRules

end RecordRules
