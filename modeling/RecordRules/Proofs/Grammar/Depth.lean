import Mathlib.Data.Nat.Log
import RecordRules.Proofs.Grammar.RoundTrip
import RecordRules.Proofs.Connective

/-!
How deep the tree of a rule is and how deep its normal form.  Each level of nesting adds at most
one negation, or one chain of either operator.  A chain adds to a tree the logarithm of its length,
and to a normal form one node.
-/

namespace RecordRules

namespace NormalForm

mutual

/-- The number of nodes on the longest path from the root; a leaf has depth one. -/
def depth : NormalForm → Nat
  | .eq _ _ => 1
  | .flag _ => 1
  | .all parts => 1 + deepest parts
  | .any parts => 1 + deepest parts
  | .not operand => 1 + operand.depth

def deepest : List NormalForm → Nat
  | [] => 0
  | part :: parts => max part.depth (deepest parts)

end

theorem deepest_le_iff {parts : List NormalForm} {d : Nat} :
    deepest parts ≤ d ↔ ∀ p ∈ parts, p.depth ≤ d := by
  induction parts with
  | nil => simp [deepest]
  | cons part parts ih => rw [deepest, Nat.max_le, ih, List.forall_mem_cons]

theorem depth_node (settling : Bool) (parts : List NormalForm) :
    (node settling parts).depth = 1 + deepest parts := by
  cases settling <;> rw [node, depth]

theorem depth_le_of_mem_partsOf {settling : Bool} {p part : NormalForm}
    (h : part ∈ p.partsOf settling) : part.depth ≤ p.depth := by
  rcases eq_node_or settling p with ⟨parts, rfl⟩ | hother
  · rw [partsOf_node] at h
    have hpart := deepest_le_iff.1 (Nat.le_refl (deepest parts)) part h
    rw [depth_node]
    omega
  · rw [partsOf_eq_singleton hother] at h
    rw [List.mem_singleton.1 h]

theorem depth_negate_le (p : NormalForm) : p.negate.depth ≤ 1 + p.depth := by
  cases p with
  | not operand =>
      simp only [negate, depth]
      omega
  | _ => exact Nat.le_refl _

end NormalForm

theorem Expr.depth_connective (settling : Bool) (left right : Expr) :
    (connective settling left right).depth = 1 + max left.depth right.depth := by
  cases settling <;> rfl

theorem Expr.names_ne_nil (e : Expr) : e.names ≠ [] := by
  induction e with
  | eq field value | flag field => exact List.cons_ne_nil _ _
  | and left right ihl _ | or left right ihl _ => simp [names, ihl]
  | not operand ih => exact ih

namespace Grammar

section Chains

variable {join : Expr → Expr → Expr} {es : List Expr} {tree : Expr}

/-- A chain has no more operands than its tree has leaves, and none of them has more. -/
theorem Balanced.leaves_le (h : Balanced join es tree)
    (hjoin : ∀ a b, (join a b).names = a.names ++ b.names) :
    es.length ≤ tree.names.length ∧ ∀ e ∈ es, e.names.length ≤ tree.names.length := by
  induction h with
  | one e => exact ⟨List.length_pos_iff.2 e.names_ne_nil, by simp⟩
  | halves _ _ _ ihl ihr =>
      rw [hjoin, List.length_append, List.length_append]
      refine ⟨Nat.add_le_add ihl.1 ihr.1, List.forall_mem_append.2 ⟨?_, ?_⟩⟩
      · intro e he
        exact Nat.le_add_right_of_le (ihl.2 e he)
      · intro e he
        exact Nat.le_add_left_of_le (ihr.2 e he)

/-- Halves of equal length, or a left one that is longer by one, take one step less. -/
theorem clog_add {m n : Nat} (hn : 0 < n) (h : m = n ∨ m = n + 1) :
    Nat.clog 2 (m + n) = Nat.clog 2 m + 1 := by
  have hhalf : (m + n + 2 - 1) / 2 = m := by omega
  rw [Nat.clog_of_two_le (Nat.le_refl 2) (by omega), hhalf]

/-- A balanced tree is as high above its operands as the logarithm of their number. -/
theorem Balanced.measure_le {μ : Expr → Nat} (h : Balanced join es tree)
    (hjoin : ∀ a b, μ (join a b) = 1 + max (μ a) (μ b)) {d : Nat} (hes : ∀ e ∈ es, μ e ≤ d) :
    μ tree ≤ d + Nat.clog 2 es.length := by
  induction h with
  | one e => simpa using hes
  | @halves left right a b hlength hleft hright ihl ihr =>
      obtain ⟨hl, hr⟩ := List.forall_mem_append.1 hes
      have hpos := List.length_pos_iff.2 hright.ne_nil
      have hmono : Nat.clog 2 right.length ≤ Nat.clog 2 left.length :=
        Nat.clog_mono_right 2 (by omega)
      have ha := ihl hl
      have hb := ihr hr
      rw [hjoin, List.length_append, clog_add hpos hlength]
      omega

theorem Balanced.measure_le_of_length_le {μ : Expr → Nat} (h : Balanced join es tree)
    (hjoin : ∀ a b, μ (join a b) = 1 + max (μ a) (μ b)) {leaves : Nat}
    (hlength : es.length ≤ leaves) {d : Nat} (hes : ∀ e ∈ es, μ e ≤ d) :
    μ tree ≤ d + Nat.clog 2 leaves :=
  Nat.le_trans (h.measure_le hjoin hes) (Nat.add_le_add_left (Nat.clog_mono_right 2 hlength) d)

end Chains

/-- A measure of the trees with at most `leaves` leaves: it grows by a fixed number with each
negation and with each chain of operands, however long. -/
structure Grows (μ : Expr → Nat) (leaves leaf negation chain : Nat) : Prop where
  eq : ∀ field value, μ (.eq field value) ≤ leaf
  flag : ∀ field, μ (.flag field) ≤ leaf
  not : ∀ e, μ (.not e) ≤ negation + μ e
  connective : ∀ {settling es tree d}, Balanced (Expr.connective settling) es tree →
    es.length ≤ leaves → (∀ e ∈ es, μ e ≤ d) → μ tree ≤ d + chain

/-- How many chains of operands stand one in another in a phrase, groups left aside. -/
def Symbol.chains : Symbol → Nat
  | .disjunction => 2
  | .conjunction => 1
  | .unary => 0
  | .primary => 0

section Measures

variable {μ : Expr → Nat} {leaves leaf negation chain : Nat}

/-- A chain of operands grows over them by its fixed number, if it has no more leaves than there can
be: then neither has any operand, and there are no more operands than that. -/
theorem Grows.chain_le (hμ : Grows μ leaves leaf negation chain) (settling : Bool) {e tree : Expr}
    {es : List Expr} (hbalanced : Balanced (Expr.connective settling) (e :: es) tree)
    (hleaves : tree.names.length ≤ leaves) {d : Nat} (hfirst : e.names.length ≤ leaves → μ e ≤ d)
    (hothers : (∀ e ∈ es, e.names.length ≤ leaves) → ∀ e ∈ es, μ e ≤ d) : μ tree ≤ d + chain := by
  obtain ⟨hlength, hnames⟩ := hbalanced.leaves_le (Expr.names_connective settling)
  have hes := List.forall_mem_cons.1 fun e he => Nat.le_trans (hnames e he) hleaves
  exact hμ.connective hbalanced (Nat.le_trans hlength hleaves)
    (List.forall_mem_cons.2 ⟨hfirst hes.1, hothers hes.2⟩)

mutual

/-- With each level of nesting a phrase grows by a negation, or by a chain of either operator. -/
theorem Derives.measure_le (hμ : Grows μ leaves leaf negation chain) {n : Nat} {symbol : Symbol}
    {text rest : List Char} {e : Expr} :
    Derives symbol n text e rest → e.names.length ≤ leaves →
      μ e ≤ leaf + n * max negation (2 * chain) + symbol.chains * chain
  | .disjunction hfirst hothers hbalanced, hleaves => by
      have hgrown := hμ.chain_le true hbalanced hleaves (hfirst.measure_le hμ)
        (hothers.measure_le hμ)
      simp only [Symbol.chains] at hgrown ⊢
      omega
  | .conjunction hfirst hothers hbalanced, hleaves => by
      have hgrown := hμ.chain_le false hbalanced hleaves (hfirst.measure_le hμ)
        (hothers.measure_le hμ)
      simp only [Symbol.chains] at hgrown ⊢
      omega
  | @Derives.negation n _ _ _ _ inner _ _ hinner, hleaves => by
      have hbelow := hinner.measure_le hμ hleaves
      have hgrown := hμ.not inner
      have hlevel := Nat.le_max_left negation (2 * chain)
      rw [Nat.succ_mul]
      simp only [Symbol.chains] at hbelow ⊢
      omega
  | .operand _ hprimary, hleaves => hprimary.measure_le hμ hleaves
  | @Derives.group n _ _ _ _ hinside _, hleaves => by
      have hbelow := hinside.measure_le hμ hleaves
      have hlevel := Nat.le_max_right negation (2 * chain)
      rw [Nat.succ_mul]
      simp only [Symbol.chains] at hbelow ⊢
      omega
  | .comparison _ _ _ _, _ => Nat.le_trans (hμ.eq _ _) (by omega)
  | .flag _, _ => Nat.le_trans (hμ.flag _) (by omega)

theorem Repeats.measure_le (hμ : Grows μ leaves leaf negation chain) {n : Nat} {op : Operator}
    {symbol : Symbol} {text rest : List Char} {es : List Expr} :
    Repeats op symbol n text es rest → (∀ e ∈ es, e.names.length ≤ leaves) →
      ∀ e ∈ es, μ e ≤ leaf + n * max negation (2 * chain) + symbol.chains * chain
  | .none _, _ => nofun
  | .more _ _ he hes, hleaves => by
      obtain ⟨hfirst, hothers⟩ := List.forall_mem_cons.1 hleaves
      exact List.forall_mem_cons.2 ⟨he.measure_le hμ hfirst, hes.measure_le hμ hothers⟩

end

end Measures

theorem grows_depth (leaves : Nat) : Grows Expr.depth leaves 1 1 (Nat.clog 2 leaves) where
  eq _ _ := Nat.le_refl 1
  flag _ := Nat.le_refl 1
  not _ := Nat.le_refl _
  connective h hlength hes := h.measure_le_of_length_le (Expr.depth_connective _) hlength hes

/-- The operands of a chain come into one node, of which the parts of each operand are parts. -/
theorem Balanced.depth_normalForm_le {settling : Bool} {es : List Expr} {tree : Expr}
    (h : Balanced (Expr.connective settling) es tree) {d : Nat}
    (hes : ∀ e ∈ es, e.normalForm.depth ≤ d) :
    tree.normalForm.depth ≤ d + 1 ∧ ∀ p ∈ tree.normalForm.partsOf settling, p.depth ≤ d := by
  induction h with
  | one e =>
      have he := hes e List.mem_cons_self
      refine ⟨Nat.le_succ_of_le he, ?_⟩
      intro p hp
      exact Nat.le_trans (NormalForm.depth_le_of_mem_partsOf hp) he
  | halves _ _ _ ihl ihr =>
      obtain ⟨hl, hr⟩ := List.forall_mem_append.1 hes
      have hparts := List.forall_mem_append.2 ⟨(ihl hl).2, (ihr hr).2⟩
      rw [Expr.normalForm_connective, NormalForm.partsOf_node, NormalForm.depth_node, Nat.add_comm]
      exact ⟨Nat.succ_le_succ (NormalForm.deepest_le_iff.2 hparts), hparts⟩

theorem grows_depth_normalForm (leaves : Nat) :
    Grows (fun e => e.normalForm.depth) leaves 1 1 1 where
  eq _ _ := by simp [Expr.normalForm, NormalForm.depth]
  flag _ := by simp [Expr.normalForm, NormalForm.depth]
  not e := e.normalForm.depth_negate_le
  connective h _ hes := (h.depth_normalForm_le hes).1

/-- However long its text is, a rule has a normal form of depth 259 at most, and a tree whose depth
grows with the logarithm of the number of its leaves. -/
theorem depth_of_parse {text : String} {e : Expr} (h : Expr.parse text = .ok e) :
    e.depth ≤ 129 + 258 * Nat.clog 2 e.names.length ∧ e.normalForm.depth ≤ 259 := by
  obtain ⟨rest, hderives, -⟩ := (parse_eq_ok_iff_isRule text e).1 h
  have htree := hderives.measure_le (grows_depth _) (Nat.le_refl _)
  have hnormal := hderives.measure_le (grows_depth_normalForm _) (Nat.le_refl _)
  simp only [Symbol.chains] at htree hnormal
  constructor
  · have hmax : max 1 (2 * Nat.clog 2 e.names.length) ≤ 1 + 2 * Nat.clog 2 e.names.length := by
      omega
    omega
  · exact hnormal

/-- A rule of groups in one another, each of which ends a conjunction that ends a disjunction. -/
def stair : Nat → Expr
  | 0 => .or (.flag "a") (.and (.flag "b") (.flag "c"))
  | n + 1 => .or (.flag "a") (.and (.flag "b") (stair n))

def writeStair : Nat → List Char → List Char
  | 0, rest => "a or b and ".toList ++ 'c' :: rest
  | n + 1, rest => "a or b and ".toList ++ '(' :: writeStair n (')' :: rest)

theorem derives_stair (n : Nat) {rest : List Char} (h : Stops rest) :
    Derives .disjunction n (writeStair n rest) (stair n) rest := by
  have hstep : ∀ {m : Nat} {text rest : List Char} {e : Expr}, Derives .unary m text e rest →
      Derives .disjunction m ("a or b and ".toList ++ text)
        (.or (.flag "a") (.and (.flag "b") e)) rest := by
    intro m text rest e h
    have ha : Identifier "a" := (isName_iff "a").1 (by decide)
    have hb : Identifier "b" := (isName_iff "b").1 (by decide)
    have hright := derives_pair .keyword false
      (derives_flag hb (stops_between .and .keyword text)) h
    exact derives_pair .keyword true
      ((derives_flag ha (stops_between .or .keyword _)).operand_of_unary true) hright
  have hc : Identifier "c" := (isName_iff "c").1 (by decide)
  induction n generalizing rest with
  | zero => exact hstep (derives_flag hc h)
  | succ n ih => exact hstep (ih (stops_cons rest (by decide))).parenthesized

/-- The bound on normal forms is attained by 129 disjunctions in one another. -/
theorem depth_of_parse_stair :
    let text := String.ofList (writeStair 128 [])
    Expr.parse text = .ok (stair 128) ∧
      (stair 128).depth ≤ 129 + 258 * Nat.clog 2 (stair 128).names.length ∧
        (stair 128).normalForm.depth = 259 := by
  intro text
  have hparse : Expr.parse text = .ok (stair 128) := by
    rw [parse_eq_ok_iff_isRule, String.toList_ofList]
    exact ⟨[], derives_stair 128 stops_nil, .refl []⟩
  refine ⟨hparse, (depth_of_parse hparse).1, ?_⟩
  apply Nat.le_antisymm (depth_of_parse hparse).2
  decide +kernel

end Grammar

end RecordRules
