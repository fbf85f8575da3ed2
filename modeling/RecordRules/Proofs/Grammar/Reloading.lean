import RecordRules.Proofs.Grammar.Depth
import RecordRules.Proofs.Grammar.Locality

/-!
Rules written back.  The text that a rule is written as nests differently from the text that it was
read from: binary nodes and operands of negations get parentheses of their own.  A rule is read
again exactly if what it is written as stays within the limit, and that is sure where the text that
it was read from nests little and is not too long.
-/

namespace RecordRules

namespace Grammar

/-- A negation is written with two levels at most, a balanced chain with one for each halving. -/
theorem grows_writtenNesting (leaves : Nat) :
    Grows Expr.writtenNesting leaves 0 2 (Nat.clog 2 leaves) where
  eq _ _ := Nat.le_refl 0
  flag _ := Nat.le_refl 0
  not e := by
    rw [Expr.writtenNesting]
    split <;> omega
  connective h hlength hes :=
    h.measure_le_of_length_le (Expr.writtenNesting_connective _) hlength hes

/-- What was read is read again, or refused for its nesting, by the levels that it is written with.
It is read again where the levels of the text that it was read from, and the halvings of a chain of
all its leaves, are few. -/
theorem parse_render_of_parse {text : String} {e : Expr} (h : Expr.parse text = .ok e)
    (d : Dialect) :
    Expr.parse (e.render d) = (if e.writtenNesting ≤ 128 then .ok e else .error .tooDeep) ∧
      ∀ n, IsRule n text.toList e →
        n * max 2 (2 * Nat.clog 2 e.names.length) + 2 * Nat.clog 2 e.names.length ≤ 128 →
          Expr.parse (e.render d) = .ok e := by
  obtain ⟨_, hderives, -⟩ := (parse_eq_ok_iff_isRule text e).1 h
  have hnames := hderives.nameable
  constructor
  · split
    · next hn => exact parse_render d hnames hn
    · next hn => exact parse_render_tooDeep d hnames (Nat.lt_of_not_le hn)
  · rintro n ⟨rest, hderives, -⟩ hn
    have hwritten := hderives.measure_le (grows_writtenNesting _) (Nat.le_refl _)
    simp only [Symbol.chains] at hwritten
    exact parse_render d hnames (by omega : e.writtenNesting ≤ 128)

/-- A field behind exclamation marks, as many as `n`. -/
def denied (n : Nat) : String :=
  String.ofList (List.replicate n '!') ++ "is_vip"

theorem isRule_denied (n : Nat) :
    IsRule n (denied n).toList (Nat.repeat Expr.not n (.flag "is_vip")) := by
  have hname : Identifier "is_vip" := (isName_iff "is_vip").1 (by decide)
  have hunary : ∀ n, Derives .unary n (List.replicate n '!' ++ ("is_vip".toList ++ []))
      (Nat.repeat Expr.not n (.flag "is_vip")) [] := by
    intro n
    induction n with
    | zero => exact derives_flag hname stops_nil
    | succ n ih => exact .negation (.refl _) (.punctuation _) ih
  have h := (hunary n).disjunction_of_unary
  rw [List.append_nil] at h
  rw [denied, String.toList_append, String.toList_ofList]
  exact ⟨[], h, .refl []⟩

theorem parse_denied {n : Nat} (hn : n ≤ nestingLimit) :
    Expr.parse (denied n) = .ok (Nat.repeat Expr.not n (.flag "is_vip")) :=
  (parse_eq_ok_iff_isRule _ _).2 ((isRule_denied n).deeper hn)

/-- Sixty-four negations are written with all levels that there are. -/
theorem parse_render_of_parse_denied :
    let e := Nat.repeat Expr.not 64 (.flag "is_vip")
    Expr.parse (denied 64) = .ok e ∧ IsRule 64 (denied 64).toList e ∧
      64 * max 2 (2 * Nat.clog 2 e.names.length) + 2 * Nat.clog 2 e.names.length ≤ 128 ∧
        Expr.parse (e.render .keyword) = .ok e := by
  intro e
  have hparse : Expr.parse (denied 64) = .ok e := parse_denied (by decide)
  have hleaves : e.names.length = 1 := rfl
  have hn : 64 * max 2 (2 * Nat.clog 2 e.names.length) + 2 * Nat.clog 2 e.names.length ≤ 128 := by
    rw [hleaves, Nat.clog_one_right]
    decide
  exact ⟨hparse, isRule_denied 64, hn,
    (parse_render_of_parse hparse .keyword).2 64 (isRule_denied 64) hn⟩

/-- Sixty-five negations are read, and are not read again as they are written. -/
theorem parse_render_denied :
    let e := Nat.repeat Expr.not 65 (.flag "is_vip")
    Expr.parse (denied 65) = .ok e ∧ Expr.parse (e.render .keyword) = .error .tooDeep ∧
      Expr.parse (e.render .symbolic) = .error .tooDeep := by
  intro e
  have hparse : Expr.parse (denied 65) = .ok e := parse_denied (by decide)
  obtain ⟨_, hderives, -⟩ := (parse_eq_ok_iff_isRule _ _).1 hparse
  have hn : nestingLimit < e.writtenNesting := by decide
  exact ⟨hparse, parse_render_tooDeep .keyword hderives.nameable hn,
    parse_render_tooDeep .symbolic hderives.nameable hn⟩

end Grammar

end RecordRules
