import Std.Data.String.ToNat
import RecordRules.Proofs.Random.Rule

/-!
How deeply random rules are nested.  Where every word is zero, each split sets a single field
apart from all others, and the rule is a comb with a tooth for each field.  No rule of as many
fields is nested more deeply, so the combs decide which settings can only yield rules that are
read back: a reader gives up where more than 128 levels are open.
-/

namespace RecordRules

/-- All words that are not yet taken are zero. -/
def Words.ZeroAhead (words : Words) : Prop :=
  ∀ k, words.used ≤ k → words.word k = 0

theorem Words.lasting_zeroAhead : Words.Lasting Words.ZeroAhead := by
  intro words hzero k hk
  exact hzero k (Nat.le_of_succ_le hk)

/-- The source that begins with the largest word of 32 bits and goes on with zeros. -/
def Words.deepest : Words where
  word k := if k = 0 then 4294967295 else 0
  used := 0

namespace Draw

theorem possible_chance_iff (probability : Float) :
    Possible (chance probability) ↔
      (probability == 1.0) = true ∨ 0 < (probability * 18446744073709551616.0).toUInt64 := by
  rw [Possible, chance]
  split
  · next hsure => exact ⟨fun _ => .inl hsure, fun _ => ⟨⟨fun _ => 0, 0⟩, rfl⟩⟩
  · next hunsure =>
      constructor
      · rintro ⟨words, hhappens⟩
        exact .inr (UInt64.lt_of_le_of_lt UInt64.zero_le (of_decide_eq_true hhappens))
      · rintro (hsure | hpositive)
        · exact absurd hsure hunsure
        · exact ⟨⟨fun _ => 0, 0⟩, decide_eq_true hpositive⟩

/-! ### Choices from zeros -/

theorem yields_bits_zero (size : Nat) :
    Yields Words.ZeroAhead (bits size) fun x => x.val = 0 := by
  intro words hzero
  have hword : words.word words.used = 0 := hzero _ (Nat.le_refl _)
  refine ⟨?_, Words.lasting_zeroAhead words hzero⟩
  change (words.word words.used).toNat % Nat.pow 2 size = 0
  rw [hword]
  exact Nat.zero_mod _

theorem yields_index_zero (n : Nat) (hn : 0 < n) :
    Yields Words.ZeroAhead (index n hn) fun i => i.val = 0 := by
  apply (yields_bits_zero 32).bind
  intro x hx
  split
  · apply (yields_bits_zero 32).bind
    intro y hy
    apply Yields.pure
    simp only [hx, hy, Nat.zero_mul, Nat.zero_div, Nat.add_zero]
  · apply Yields.pure
    simp only [hx, Nat.zero_mul, Nat.zero_div]

/-- From zeros, whatever can happen does. -/
theorem yields_chance_zero {probability : Float} (h : Possible (chance probability)) :
    Yields Words.ZeroAhead (chance probability) fun happens => happens = true := by
  rw [possible_chance_iff] at h
  rw [chance]
  split
  · exact .pure rfl
  · next hunsure =>
      have hpositive := h.resolve_left hunsure
      intro words hzero
      have hword : words.word words.used = 0 := hzero _ (Nat.le_refl _)
      refine ⟨?_, Words.lasting_zeroAhead words hzero⟩
      change decide (words.word words.used < _) = true
      rw [hword]
      exact decide_eq_true hpositive

/-- The first index from the deepest source is the last one there is. -/
theorem index_deepest {n j : Nat} (hn : 0 < n) (hj : j < n) (hsmall : j < Nat.pow 2 32) :
    j ≤ ((index n hn).run .deepest).1.val ∧ ((index n hn).run .deepest).2.ZeroAhead := by
  have hx : ((bits 32).run .deepest).1.val = 4294967295 := rfl
  have hzero : ((bits 32).run .deepest).2.ZeroAhead := by
    intro k hk
    exact if_neg (Nat.ne_of_gt hk)
  have hscaled : j ≤ 4294967295 * n / Nat.pow 2 32 := by
    rw [Nat.le_div_iff_mul_le (Nat.two_pow_pos 32)]
    simp only [Nat.pow_eq, Nat.reducePow] at hsmall ⊢
    omega
  rw [index, below, run_bind]
  split
  · obtain ⟨-, hlater⟩ := yields_bits_zero 32 _ hzero
    refine ⟨?_, hlater⟩
    rw [run_bind]
    change j ≤ (((bits 32).run .deepest).1.val * n + _) / Nat.pow 2 32
    rw [hx]
    exact Nat.le_trans hscaled (Nat.div_le_div_right (Nat.le_add_right _ _))
  · refine ⟨?_, hzero⟩
    change j ≤ ((bits 32).run .deepest).1.val * n / Nat.pow 2 32
    rw [hx]
    exact hscaled

end Draw

namespace RandomRules

/-! ### The deepest rules -/

section Zeros

variable (s : RandomRules)

/-- From zeros, a leaf is negated where this can happen, and is written with two levels. -/
theorem yields_factor_zero (hnegation : Draw.Possible (Draw.chance s.settings.negationChance))
    {f : FieldDecl} (hf : f ∈ s.schema.fields) :
    Draw.Yields Words.ZeroAhead (s.factor f) fun e => 2 ≤ e.writtenNesting := by
  apply (s.yields_leaf Words.lasting_zeroAhead hf).bind
  intro e he
  apply (Draw.yields_chance_zero hnegation).bind
  intro negated hnegated
  rw [if_pos hnegated]
  apply Draw.Yields.pure
  rw [Expr.writtenNesting, he.isBinary_eq, he.writtenNesting_eq]
  exact Nat.le_refl 2

/-- From zeros, every field but the last adds a level to those of a factor. -/
theorem yields_arrange_zero {k : Nat}
    (hfactor : ∀ f ∈ s.schema.fields,
      Draw.Yields Words.ZeroAhead (s.factor f) fun e => k ≤ e.writtenNesting)
    (first : FieldDecl) (rest : List FieldDecl)
    (hfields : ∀ f ∈ first :: rest, f ∈ s.schema.fields) :
    Draw.Yields Words.ZeroAhead (s.arrange first rest) fun e =>
      rest.length + k ≤ e.writtenNesting := by
  induction rest generalizing first with
  | nil =>
      have hnone : ¬ 0 < ([] : List FieldDecl).length := Nat.lt_irrefl 0
      rw [arrange, dif_neg hnone]
      apply (hfactor first (hfields first List.mem_cons_self)).mono
      intro e he
      rw [List.length_nil, Nat.zero_add]
      exact he
  | cons second rest ih =>
      obtain ⟨hfirst, hrest⟩ := List.forall_mem_cons.1 hfields
      have hsome : 0 < (second :: rest).length := Nat.zero_lt_succ _
      rw [arrange, dif_pos hsome]
      apply (Draw.yields_index_zero _ _).bind
      rintro ⟨cut, hcut⟩ hzero
      obtain rfl : cut = 0 := hzero
      have hleft := s.yields_arrange Words.lasting_zeroAhead first []
        (List.forall_mem_singleton.2 hfirst)
      apply hleft.bind
      intro left _
      apply (ih second hrest).bind
      intro right hright
      apply (Draw.yields_chance Words.lasting_zeroAhead _).bind
      intro joined _
      split
      all_goals
        apply Draw.Yields.pure
        rw [Expr.writtenNesting, List.length_cons]
        omega

end Zeros

/-- From the deepest source, all fields that the settings allow are picked. -/
theorem lt_length_pick_deepest (s : RandomRules) {j : Nat} (hj : j < s.leafLimit)
    (hsmall : j < Nat.pow 2 32) :
    j < (s.pick.run .deepest).1.length ∧ (s.pick.run .deepest).2.ZeroAhead := by
  obtain ⟨hothers, hzero⟩ := Draw.index_deepest s.leafLimit_pos hj hsmall
  rw [pick, Draw.run_bind]
  refine (?_ : Draw.Yields Words.ZeroAhead _ fun picked : List _ => j < picked.length) _ hzero
  apply (Draw.yields_sample Words.lasting_zeroAhead _ _ _).bind
  intro picked _
  apply Draw.Yields.pure
  rw [List.length_map, Vector.length_toList]
  exact Nat.lt_succ_of_le hothers

theorem le_writtenNesting_deepest (s : RandomRules) {j k : Nat} (hj : j < s.leafLimit)
    (hsmall : j < Nat.pow 2 32)
    (hfactor : ∀ f ∈ s.schema.fields,
      Draw.Yields Words.ZeroAhead (s.factor f) fun e => k ≤ e.writtenNesting) :
    j + k ≤ (s.expr.run .deepest).1.writtenNesting := by
  obtain ⟨hlength, hzero⟩ := s.lt_length_pick_deepest hj hsmall
  obtain ⟨first, rest, hpick, hexpr⟩ := s.exists_run_pick .deepest
  obtain ⟨⟨-, hfields, -⟩, -⟩ := yields_pick Words.lasting_true s .deepest trivial
  rw [hpick] at hlength hfields
  rw [hexpr]
  obtain ⟨hdepth, -⟩ := s.yields_arrange_zero hfactor first rest hfields _ hzero
  have hrest : j ≤ rest.length := Nat.le_of_lt_succ hlength
  omega

/-- The comb of 128 fields is too deep where its last field can be negated. -/
theorem nestingLimit_lt_deepest_of_possible (s : RandomRules) (hmany : 127 < s.leafLimit)
    (hnegation : Draw.Possible (Draw.chance s.settings.negationChance)) :
    nestingLimit < (s.expr.run .deepest).1.writtenNesting :=
  s.le_writtenNesting_deepest (k := 2) hmany (by decide) fun _ hf =>
    s.yields_factor_zero hnegation hf

/-- The comb of 130 fields is too deep without negations. -/
theorem nestingLimit_lt_deepest (s : RandomRules) (hmany : 129 < s.leafLimit) :
    nestingLimit < (s.expr.run .deepest).1.writtenNesting :=
  s.le_writtenNesting_deepest (k := 0) hmany (by decide) fun _ hf =>
    (s.yields_factor Words.lasting_zeroAhead hf).mono fun _ _ => Nat.zero_le _

/-- Where no leaf can be negated, a rule is written with fewer levels than it has fields. -/
theorem Arranges.writtenNesting_lt {s : RandomRules} {fields : List FieldDecl} {e : Expr}
    (hnegation : ¬ Draw.Possible (Draw.chance s.settings.negationChance))
    (h : s.Arranges fields e) : e.writtenNesting < fields.length := by
  induction h with
  | leaf he =>
      rw [he.writtenNesting_eq]
      exact Nat.one_pos
  | negated hpossible _ => exact absurd hpossible hnegation
  | and _ _ _ _ ihl ihr | or _ _ _ _ ihl ihr =>
      rw [Expr.writtenNesting, List.length_append]
      omega

/-! ### Which random rules compile -/

theorem length_pick_le (s : RandomRules) (words : Words) :
    (s.pick.run words).1.length ≤ s.leafLimit :=
  (yields_pick Words.lasting_true s words trivial).1.1.2

/-- The compilers that take a random text: the one without a schema, and the one with its own. -/
def compilers (s : RandomRules) : List Compiler :=
  [.untyped, .withSchema s.schema]

/-- With its levels within the limit, a random text compiles to the predicate of its rule; with
more levels, that is what the compiler reports. -/
theorem compile_text (s : RandomRules) (words : Words) {c : Compiler} (hc : c ∈ s.compilers) :
    c.compile (s.text.run words).1 =
      if (s.expr.run words).1.writtenNesting ≤ nestingLimit then
        .ok (.ofExpr (s.expr.run words).1)
      else
        .error (.malformed (s.text.run words).1 .tooDeep) := by
  obtain ⟨-, hfields, -⟩ := (yields_pick Words.lasting_true s words trivial).1
  have harranges := s.arranges_expr words
  have hnames := harranges.nameable hfields
  have haccept : c.accept (s.text.run words).1 (s.expr.run words).1 =
      .ok (.ofExpr (s.expr.run words).1) := by
    rcases List.mem_pair.1 hc with rfl | rfl
    · rfl
    · exact (Compiler.accept_withSchema_eq_ok_iff _ _ _ _).2 ⟨harranges.admits hfields, rfl⟩
  change c.compile ((s.expr.run words).1.render s.settings.dialect) = _
  rw [Compiler.compile]
  split_ifs with hdepth
  · rw [Grammar.parse_render _ hnames hdepth]
    exact haccept
  · rw [Grammar.parse_render_tooDeep _ hnames (Nat.lt_of_not_le hdepth)]
    rfl

/-- All random texts compile if no random rule is written with more levels than a reader opens. -/
theorem forall_compile_text_iff (s : RandomRules) :
    (∀ words, ∀ c ∈ s.compilers, ∃ p, c.compile (s.text.run words).1 = .ok p) ↔
      ∀ words, (s.expr.run words).1.writtenNesting ≤ nestingLimit := by
  constructor
  · intro hall words
    by_contra hdepth
    obtain ⟨p, hp⟩ := hall words .untyped List.mem_cons_self
    rw [s.compile_text words List.mem_cons_self, if_neg hdepth] at hp
    cases hp
  · intro hall words c hc
    refine ⟨.ofExpr (s.expr.run words).1, ?_⟩
    rw [s.compile_text words hc, if_pos (hall words)]

/-- How many leaves a rule may have so that all random rules are written within the limit. -/
theorem forall_writtenNesting_le_iff (s : RandomRules) :
    (∀ words, (s.expr.run words).1.writtenNesting ≤ nestingLimit) ↔
      s.leafLimit ≤ 127 ∨
        s.leafLimit ≤ 129 ∧ ¬ Draw.Possible (Draw.chance s.settings.negationChance) := by
  constructor
  · intro hall
    by_contra hmore
    obtain ⟨hmany, hmost⟩ := not_or.1 hmore
    by_cases hnegation : Draw.Possible (Draw.chance s.settings.negationChance)
    · have hdeep := s.nestingLimit_lt_deepest_of_possible (Nat.lt_of_not_le hmany) hnegation
      exact Nat.not_le.2 hdeep (hall .deepest)
    · have hdeep := s.nestingLimit_lt_deepest
        (Nat.lt_of_not_le fun hfew => hmost ⟨hfew, hnegation⟩)
      exact Nat.not_le.2 hdeep (hall .deepest)
  · rintro (hfew | ⟨hfew, hnegation⟩) words
    · calc
        (s.expr.run words).1.writtenNesting ≤ (s.pick.run words).1.length + 1 :=
          (s.arranges_expr words).writtenNesting_le
        _ ≤ s.leafLimit + 1 := Nat.succ_le_succ (s.length_pick_le words)
        _ ≤ nestingLimit := Nat.succ_le_succ hfew
    · apply Nat.le_of_lt_succ
      calc
        (s.expr.run words).1.writtenNesting < (s.pick.run words).1.length :=
          (s.arranges_expr words).writtenNesting_lt hnegation
        _ ≤ s.leafLimit := s.length_pick_le words
        _ ≤ nestingLimit + 1 := hfew

/-- The text of a random rule compiles, without its schema and with it, if it is written with at
most 128 levels, and is refused for its nesting otherwise.  All texts compile exactly if a rule has
at most 127 leaves, or 129 where no leaf can be negated. -/
theorem text_compiles_iff (s : RandomRules) :
    (∀ words, ∀ c ∈ s.compilers,
        let e := (s.expr.run words).1
        let text := (s.text.run words).1
        c.compile text =
          if e.writtenNesting ≤ 128 then .ok (.ofExpr e) else .error (.malformed text .tooDeep)) ∧
      ((∀ words, ∀ c ∈ s.compilers, ∃ p, c.compile (s.text.run words).1 = .ok p) ↔
        s.leafLimit ≤ 127 ∨
          s.leafLimit ≤ 129 ∧ ¬ Draw.Possible (Draw.chance s.settings.negationChance)) := by
  constructor
  · intro words c hc
    exact s.compile_text words hc
  · rw [forall_compile_text_iff, forall_writtenNesting_le_iff]

def flagName (i : Nat) : String :=
  s!"f{i}"

theorem flagName_injective : Function.Injective flagName := by
  intro i j h
  simpa only [flagName, Nat.toString_eq_repr, String.append_right_inj, Nat.repr_inj] using h

def manyFlags : Schema where
  fields := ((List.range 128).map flagName).map .boolean
  faultless := Schema.fault?_map_boolean (List.cons_ne_nil _ _) (by decide +kernel)
    (List.nodup_range.map flagName_injective)

/-- With all of 128 fields in a comb, and each of them negated, the text has 129 levels. -/
theorem compile_text_manyFlags :
    let s := standard manyFlags 128
    let text := (s.text.run .deepest).1
    ∀ c ∈ [Compiler.untyped, Compiler.withSchema manyFlags],
      c.compile text = .error (.malformed text .tooDeep) := by
  intro s text c hc
  have hnegation : Draw.Possible (Draw.chance s.settings.negationChance) :=
    (Draw.possible_chance_iff _).2 (.inr (by decide +kernel))
  have hdeep := s.nestingLimit_lt_deepest_of_possible (by decide +kernel) hnegation
  rw [s.compile_text .deepest hc, if_neg (Nat.not_le.2 hdeep)]

end RandomRules

end RecordRules
