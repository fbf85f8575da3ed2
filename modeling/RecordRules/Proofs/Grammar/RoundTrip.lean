import RecordRules.Proofs.Grammar.Nesting

/-!
An expression that is written and read again is the same expression, exactly if its fields are
names and it takes no more levels of nesting than a rule may have.
-/

namespace RecordRules

namespace Grammar

/-- A balanced tree has the leaves of its operands, in their order. -/
theorem Balanced.names_eq {join : Expr → Expr → Expr} {es : List Expr} {tree : Expr}
    (h : Balanced join es tree) (hjoin : ∀ a b, (join a b).names = a.names ++ b.names) :
    tree.names = es.flatMap Expr.names := by
  induction h with
  | one e => simp
  | halves _ _ _ ihl ihr => rw [hjoin, ihl, ihr, List.flatMap_append]

theorem Balanced.nameable {join : Expr → Expr → Expr} {es : List Expr} {tree : Expr}
    (h : Balanced join es tree) (hjoin : ∀ a b, (join a b).names = a.names ++ b.names)
    (hes : ∀ e ∈ es, e.Nameable) : tree.Nameable := by
  intro name hname
  rw [h.names_eq hjoin] at hname
  obtain ⟨e, he, hname⟩ := List.mem_flatMap.1 hname
  exact hes e he name hname

mutual

/-- The fields of what derives are names. -/
theorem Derives.nameable {n : Nat} {symbol : Symbol} {text rest : List Char} {e : Expr} :
    Derives symbol n text e rest → e.Nameable
  | .disjunction hfirst hothers hbalanced | .conjunction hfirst hothers hbalanced => by
      refine hbalanced.nameable (fun _ _ => rfl) ?_
      exact List.forall_mem_cons.2 ⟨hfirst.nameable, hothers.nameable⟩
  | .negation _ _ hinner => hinner.nameable
  | .operand _ hprimary => hprimary.nameable
  | .group hinside _ => hinside.nameable
  | .comparison hname _ _ _ | .flag hname => by
      intro name hmem
      obtain rfl := List.mem_singleton.1 hmem
      exact (isName_iff name).2 hname.1

theorem Repeats.nameable {n : Nat} {op : Operator} {symbol : Symbol} {text rest : List Char}
    {es : List Expr} : Repeats op symbol n text es rest → ∀ e ∈ es, e.Nameable
  | .none _ => nofun
  | .more _ _ he hes => List.forall_mem_cons.2 ⟨he.nameable, hes.nameable⟩

end

/-- With its levels within the limit, an expression is read back from what it is written as. -/
theorem read_write (d : Dialect) {e : Expr} (hnames : e.Nameable)
    (hn : e.writtenNesting ≤ nestingLimit) : Expr.read (e.write d []) = .ok e := by
  rw [read_eq_ok_iff]
  have hunary := derives_write d hnames hn stops_nil
  exact ⟨[], hunary.disjunction_of_unary, .refl []⟩

theorem read_write_tooDeep (d : Dialect) {e : Expr} (hnames : e.Nameable)
    (hn : nestingLimit < e.writtenNesting) : Expr.read (e.write d []) = .error .tooDeep :=
  read_tooDeep (tooDeep_write d hnames hn [])

theorem toList_render (d : Dialect) (e : Expr) : (e.render d).toList = e.write d [] := by
  rw [Expr.render, String.toList_ofList]

/-- A rule text within the limit of nesting is parsed to the expression that it shows. -/
theorem parse_render (d : Dialect) {e : Expr} (hnames : e.Nameable)
    (hn : e.writtenNesting ≤ nestingLimit) : Expr.parse (e.render d) = .ok e := by
  rw [Expr.parse, toList_render, read_write d hnames hn]
  rfl

theorem parse_render_tooDeep (d : Dialect) {e : Expr} (hnames : e.Nameable)
    (hn : nestingLimit < e.writtenNesting) : Expr.parse (e.render d) = .error .tooDeep := by
  rw [Expr.parse, toList_render, read_write_tooDeep d hnames hn]
  rfl

/-- An expression is read back from what it is written as exactly if its fields are names and it
is written with at most 128 levels; with more levels, that is what reading reports. -/
theorem parse_render_eq_ok_iff (d : Dialect) (e : Expr) :
    (Expr.parse (e.render d) = .ok e ↔ e.Nameable ∧ e.writtenNesting ≤ 128) ∧
      (e.Nameable → 128 < e.writtenNesting →
        (Expr.parse (e.render d)).mapError ParseError.reason =
          .error "expression nested too deeply (limit 128)") := by
  rw [parse_eq_ok_iff_read, Expr.parse, toList_render]
  constructor
  · constructor
    · intro h
      obtain ⟨rest, hderives, -⟩ := (read_eq_ok_iff _ _).1 h
      refine ⟨hderives.nameable, Nat.not_lt.1 fun hn => ?_⟩
      cases h.symm.trans (read_write_tooDeep d hderives.nameable hn)
    · rintro ⟨hnames, hn⟩
      exact read_write d hnames hn
  · intro hnames hn
    rw [read_write_tooDeep d hnames hn]
    rfl

/-- Sixty-five negations around a field are written with two levels each. -/
theorem parse_render_deep_negations :
    let e := Nat.repeat Expr.not 65 (.flag "is_vip")
    e.Nameable ∧ 128 < e.writtenNesting ∧
      (Expr.parse (e.render .keyword)).mapError ParseError.reason =
        .error "expression nested too deeply (limit 128)" := by
  have hnames : (Nat.repeat Expr.not 65 (.flag "is_vip")).Nameable := by
    intro name hname
    obtain rfl := List.mem_singleton.1 hname
    decide
  have hn : 128 < (Nat.repeat Expr.not 65 (.flag "is_vip")).writtenNesting := by decide
  exact ⟨hnames, hn, (parse_render_eq_ok_iff .keyword _).2 hnames hn⟩

end Grammar

end RecordRules
