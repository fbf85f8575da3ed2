import Std.Data.String.ToNat
import RecordRules.Proofs.Repository.Passes

/-!
Repositories filled with random rules.  A run puts the texts that are drawn one after the other,
under numbered identifiers.  It ends at the first text that the compiler rejects: the texts before
it are stored, none behind it is drawn, and the rules under other identifiers are as they were.
-/

namespace RecordRules

def Compiler.Accepts (c : Compiler) (text : String) : Prop :=
  ∃ p, c.compile text = .ok p

/-- The compiler accepts the first `count` of the texts, or there is a first that it rejects. -/
theorem Compiler.accepts_or_exists_first (c : Compiler) (text : Nat → String) (count : Nat) :
    (∀ i < count, c.Accepts (text i)) ∨
      ∃ i < count, ∃ cause, (∀ j < i, c.Accepts (text j)) ∧ c.compile (text i) = .error cause := by
  induction count with
  | zero => exact .inl nofun
  | succ count ih =>
      rcases ih with haccepts | ⟨i, hi, hfirst⟩
      · cases hcompile : c.compile (text count) with
        | error cause => exact .inr ⟨count, Nat.lt_succ_self count, cause, haccepts, hcompile⟩
        | ok p =>
            refine .inl fun i hi => ?_
            rcases Nat.lt_succ_iff_lt_or_eq.1 hi with hlt | rfl
            · exact haccepts i hlt
            · exact ⟨p, hcompile⟩
      · exact .inr ⟨i, Nat.lt_succ_of_lt hi, hfirst⟩

namespace Mode.Same

variable {α : Type} {mode : Mode} {xs ys : List α}

theorem mem_iff (h : mode.Same xs ys) (a : α) : a ∈ xs ↔ a ∈ ys := by
  cases mode with
  | concurrent => exact List.Perm.mem_iff h
  | phased => exact iff_of_eq (congrArg (a ∈ ·) h)

theorem append_right (h : mode.Same xs ys) (zs : List α) : mode.Same (xs ++ zs) (ys ++ zs) := by
  cases mode with
  | concurrent => exact List.Perm.append_right zs h
  | phased => exact congrArg (· ++ zs) h

end Mode.Same

/-- A rule that is stored keeps the place of its identifier, or gets one behind all others. -/
theorem RuleStore.Coherent.same_ids_install {s : RuleStore} (h : s.Coherent) (rule : Rule) :
    s.mode.Same (s.install rule).ids
      (if rule.id ∈ s.ids then s.ids else s.ids ++ [rule.id]) := by
  cases s with
  | concurrent rules =>
      have hmem : ∀ id, id ∈ ((concurrent rules).install rule).ids ↔
          id = rule.id ∨ id ∈ (concurrent rules).ids := by
        intro id
        rw [(h.install rule).mem_ids_iff, h.mem_ids_iff, h.get?_install]
        by_cases hid : id = rule.id
        · simp [hid]
        · simp [hid]
      split
      · next hold =>
          apply (List.perm_ext_iff_of_nodup (h.install rule).nodup_ids h.nodup_ids).2
          intro id
          rw [hmem, or_iff_right_of_imp]
          rintro rfl
          exact hold
      · next hnew =>
          apply (List.perm_ext_iff_of_nodup (h.install rule).nodup_ids ?_).2
          · intro id
            rw [hmem, List.mem_append, List.mem_singleton, or_comm]
          · rw [← List.concat_eq_append]
            exact h.nodup_ids.concat hnew
  | phased table =>
      have w : table.WellIndexed := h
      exact w.ids_install rule

namespace Repository

theorem randomId_injective : Function.Injective randomId := by
  intro i j h
  simpa only [randomId, Nat.toString_eq_repr, String.append_right_inj, Nat.repr_inj,
    Nat.add_right_cancel_iff] using h

/-- Puts of texts under the identifiers of random rules, in their order. -/
def numberedPuts (text : Nat → String) (count : Nat) : List Edit :=
  (List.range count).map fun i => .put (randomId i) (text i)

/-- What a repository is once the first `k` of the texts were put under their identifiers. -/
structure StoresFirst (r : Repository) (text : Nat → String) (k : Nat) (last : Repository) :
    Prop where
  eq_editAll : last = r.editAll (numberedPuts text k)
  exists_rule : ∀ i < k, ∃ p, r.compiler.compile (text i) = .ok p ∧
    last.get? (randomId i) = some ⟨randomId i, text i, p⟩
  get?_eq : ∀ id, (∀ i < k, id ≠ randomId i) → last.get? id = r.get? id
  same_ids : r.mode.Same last.ids
    (r.ids ++ ((List.range k).map randomId).filter (· ∉ r.ids))

section Steps

variable (r : Repository)

theorem editAll_concat (edits : List Edit) (e : Edit) :
    r.editAll (edits ++ [e]) = (r.editAll edits).edit e :=
  List.foldl_concat ..

theorem editAll_numberedPuts_succ (text : Nat → String) (k : Nat) :
    r.editAll (numberedPuts text (k + 1)) =
      (r.editAll (numberedPuts text k)).edit (.put (randomId k) (text k)) := by
  rw [numberedPuts, List.range_succ, List.map_append]
  exact r.editAll_concat _ _

theorem compiler_numberedPuts (text : Nat → String) (k : Nat) :
    (r.editAll (numberedPuts text k)).compiler = r.compiler := by
  induction k with
  | zero => rfl
  | succ k ih => rw [editAll_numberedPuts_succ, compiler_edit, ih]

variable {r}

theorem put_of_compile {id text : String} {p : Predicate} (h : r.compiler.compile text = .ok p) :
    r.put id text = .ok (r.edit (.put id text)) := by
  have hput := (put_eq_ok_iff r id text _).2 ⟨p, h, rfl⟩
  rw [edit, hput]

theorem put_of_compile_error {id text : String} {cause : CompileError}
    (h : r.compiler.compile text = .error cause) : r.put id text = .error ⟨id, cause⟩ := by
  rw [put, Rule.compile, h]

end Steps

section Runs

variable (r : Repository) (rules : RandomRules) (words : Words)

/-- The outcome of a run, where rules with these identifiers were stored before it. -/
def withStored (ids : List String) (ran : (Except Rejection (List String) × Repository) × Words) :
    (Except Rejection (List String) × Repository) × Words :=
  ((ran.1.1.map (ids ++ ·), ran.1.2), ran.2)

theorem withStored_nil (ran : (Except Rejection (List String) × Repository) × Words) :
    withStored [] ran = ran := by
  obtain ⟨⟨found, last⟩, left⟩ := ran
  cases found <;> rfl

theorem withStored_withStored (ids ids' : List String)
    (ran : (Except Rejection (List String) × Repository) × Words) :
    withStored ids (withStored ids' ran) = withStored (ids ++ ids') ran := by
  obtain ⟨⟨found, last⟩, left⟩ := ran
  cases found with
  | error rejection => rfl
  | ok behind => simp [withStored, Except.map]

/-- A text that is accepted is put, and the run goes on behind it. -/
theorem run_putRandomFrom_of_accepts (done count : Nat)
    (h : r.compiler.Accepts (rules.text.run words).1) :
    (putRandomFrom rules done (count + 1) r).run words =
      withStored [randomId done]
        ((putRandomFrom rules (done + 1) count
          (r.edit (.put (randomId done) (rules.text.run words).1))).run
          (rules.text.run words).2) := by
  obtain ⟨p, hp⟩ := h
  rw [putRandomFrom, Draw.run_bind, put_of_compile hp]
  rfl

/-- A text that is rejected ends the run. -/
theorem run_putRandomFrom_of_rejects (done count : Nat) {cause : CompileError}
    (h : r.compiler.compile (rules.text.run words).1 = .error cause) :
    (putRandomFrom rules done (count + 1) r).run words =
      ((.error ⟨randomId done, cause⟩, r), (rules.text.run words).2) := by
  rw [putRandomFrom, Draw.run_bind, put_of_compile_error h]
  rfl

/-- Behind texts that are all accepted, the run goes on from where they left the repository and the
source. -/
theorem run_putRandomFrom_add {k : Nat} (count : Nat)
    (h : ∀ i < k, r.compiler.Accepts (rules.text.nth words i)) :
    (putRandomFrom rules 0 (k + count) r).run words =
      withStored ((List.range k).map randomId)
        ((putRandomFrom rules k count (r.editAll (numberedPuts (rules.text.nth words) k))).run
          (rules.text.behind words k)) := by
  induction k generalizing count with
  | zero =>
      rw [List.range_zero, List.map_nil, withStored_nil, Nat.zero_add]
      rfl
  | succ k ih =>
      have haccepts : (r.editAll (numberedPuts (rules.text.nth words) k)).compiler.Accepts
          (rules.text.nth words k) := by
        rw [compiler_numberedPuts]
        exact h k (Nat.lt_succ_self k)
      rw [Nat.add_right_comm, Nat.add_assoc, ih (count + 1) fun i hi => h i (Nat.lt_succ_of_lt hi),
        run_putRandomFrom_of_accepts _ rules _ k count haccepts, withStored_withStored,
        List.range_succ, List.map_append, editAll_numberedPuts_succ]
      rfl

end Runs

section Stored

variable {r last : Repository} {text : Nat → String} {k : Nat}

theorem storesFirst_zero (r : Repository) (text : Nat → String) : StoresFirst r text 0 r where
  eq_editAll := rfl
  exists_rule := nofun
  get?_eq _ _ := rfl
  same_ids := by
    rw [List.range_zero, List.map_nil, List.filter_nil, List.append_nil]
    exact .refl _ _

/-- One more text that is accepted is stored, in place of the rule under its identifier if there was
one. -/
theorem StoresFirst.put (h : StoresFirst r text k last) (hcoherent : last.store.Coherent)
    {p : Predicate} (hp : r.compiler.compile (text k) = .ok p) :
    StoresFirst r text (k + 1)
      ⟨r.compiler, last.store.install ⟨randomId k, text k, p⟩⟩ := by
  have hcompiler : last.compiler = r.compiler := by
    rw [h.eq_editAll, compiler_numberedPuts]
  have hmode : last.mode = r.mode := by
    rw [h.eq_editAll, mode_editAll]
  have hnew : randomId k ∉ (List.range k).map randomId := by
    intro hmem
    obtain ⟨i, hi, heq⟩ := List.mem_map.1 hmem
    exact absurd (randomId_injective heq) (Nat.ne_of_lt (List.mem_range.1 hi))
  refine ⟨?_, ?_, ?_, ?_⟩
  · rw [editAll_numberedPuts_succ, ← h.eq_editAll, edit, (put_eq_ok_iff last _ _ _).2 ⟨p, ?_, rfl⟩,
      hcompiler]
    rw [hcompiler, hp]
  · intro i hi
    rcases Nat.lt_succ_iff_lt_or_eq.1 hi with hlt | rfl
    · obtain ⟨q, hq, hget⟩ := h.exists_rule i hlt
      refine ⟨q, hq, ?_⟩
      rw [get?, hcoherent.get?_install, if_neg (randomId_injective.ne (Nat.ne_of_lt hlt))]
      exact hget
    · refine ⟨p, hp, ?_⟩
      rw [get?, hcoherent.get?_install, if_pos rfl]
  · intro id hid
    rw [get?, hcoherent.get?_install, if_neg (hid k (Nat.lt_succ_self k))]
    exact h.get?_eq id fun i hi => hid i (Nat.lt_succ_of_lt hi)
  · have hinstall : last.mode.Same _ _ :=
      hcoherent.same_ids_install ⟨randomId k, text k, p⟩
    have hmem : randomId k ∈ last.store.ids ↔ randomId k ∈ r.ids := by
      refine (h.same_ids.mem_iff _).trans ?_
      rw [List.mem_append, List.mem_filter, or_iff_left fun hmem => hnew hmem.1]
    rw [hmode] at hinstall
    change r.mode.Same (last.store.install ⟨randomId k, text k, p⟩).ids _
    rw [List.range_succ, List.map_append, List.filter_append, ← List.append_assoc]
    by_cases hold : randomId k ∈ r.ids
    · rw [if_pos (hmem.2 hold)] at hinstall
      have hsame := hinstall.trans h.same_ids
      simpa [hold] using hsame
    · rw [if_neg (mt hmem.1 hold)] at hinstall
      have hsame := hinstall.trans (h.same_ids.append_right [randomId k])
      simpa [hold] using hsame

/-- Texts that are all accepted are stored one after the other. -/
theorem storesFirst_editAll (h : r.store.Coherent) (k : Nat)
    (haccepts : ∀ i < k, r.compiler.Accepts (text i)) :
    StoresFirst r text k (r.editAll (numberedPuts text k)) := by
  induction k with
  | zero => exact storesFirst_zero r text
  | succ k ih =>
      obtain ⟨p, hp⟩ := haccepts k (Nat.lt_succ_self k)
      have hfirst := ih fun i hi => haccepts i (Nat.lt_succ_of_lt hi)
      have hnext := hfirst.put (coherent_editAll h _) hp
      exact hnext.eq_editAll ▸ hnext

end Stored

/-- Whatever a repository holds, in either mode and with any compiler, a run that stores random
rules puts the texts that are drawn in their order, up to the first that the compiler rejects.  If
there is none, all identifiers are listed.  Otherwise the error is that of this text under its
identifier, and no further text is drawn.  The texts before it are stored, and the rules under all
other identifiers are as they were. -/
theorem putRandom_stores_first (mode : Mode) (edits : List Edit) (rules : RandomRules)
    (count : Nat) (words : Words) :
    let r := (empty mode).editAll edits
    let text := rules.text.nth words
    let ran := (r.putRandom rules count).run words
    ((∀ i < count, r.compiler.Accepts (text i)) ∧
        ran.1.1 = .ok ((List.range count).map randomId) ∧ StoresFirst r text count ran.1.2 ∧
        ran.2 = rules.text.behind words count) ∨
      ∃ i < count, ∃ cause, (∀ j < i, r.compiler.Accepts (text j)) ∧
        r.compiler.compile (text i) = .error cause ∧
        ran.1.1 = .error ⟨randomId i, cause⟩ ∧ StoresFirst r text i ran.1.2 ∧
        ran.2 = rules.text.behind words (i + 1) := by
  intro r text ran
  have hcoherent : r.store.Coherent := coherent_editAll (RuleStore.coherent_empty mode) edits
  rcases r.compiler.accepts_or_exists_first text count with
    hall | ⟨i, hi, cause, hbefore, hcause⟩
  · have hran : ran = withStored ((List.range count).map randomId)
        ((.ok [], r.editAll (numberedPuts text count)), rules.text.behind words count) :=
      run_putRandomFrom_add r rules words 0 hall
    rw [hran]
    exact .inl ⟨hall, congrArg Except.ok (List.append_nil _),
      storesFirst_editAll hcoherent count hall, rfl⟩
  · obtain ⟨ahead, rfl⟩ : ∃ ahead, count = i + (ahead + 1) := ⟨count - i - 1, by omega⟩
    let last := r.editAll (numberedPuts text i)
    have hrejects : last.compiler.compile (text i) = .error cause := by
      rw [compiler_numberedPuts]
      exact hcause
    have hends : (putRandomFrom rules i (ahead + 1) last).run (rules.text.behind words i) =
        ((.error ⟨randomId i, cause⟩, last), rules.text.behind words (i + 1)) :=
      run_putRandomFrom_of_rejects last rules _ i ahead hrejects
    have hran : ran = withStored ((List.range i).map randomId)
        ((.error ⟨randomId i, cause⟩, last), rules.text.behind words (i + 1)) :=
      (run_putRandomFrom_add r rules words (ahead + 1) hbefore).trans (congrArg _ hends)
    rw [hran]
    exact .inr ⟨i, hi, cause, hbefore, hcause, rfl, storesFirst_editAll hcoherent i hbefore, rfl⟩

end Repository

end RecordRules
