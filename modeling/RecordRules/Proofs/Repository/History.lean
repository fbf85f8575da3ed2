import Mathlib.Data.List.Induction
import RecordRules.Proofs.Repository.Store

/-!
Stores as the outcome of their history.  After any changes of an empty store, what is found under
an identifier is the last rule installed there, unless it was removed since, and a phased store
lists the identifiers in the order in which they came to stay.
-/

namespace RecordRules

/-- A change of a store, made at once. -/
inductive Change where
  | install (rule : Rule)
  | erase (id : String)

def Change.id : Change → String
  | .install rule => rule.id
  | .erase id => id

/-- The last of the changes under an identifier installs this rule. -/
def LastInstall (changes : List Change) (id : String) (rule : Rule) : Prop :=
  ∃ before after, changes = before ++ .install rule :: after ∧ rule.id = id ∧
    ∀ change ∈ after, change.id ≠ id

/-- The first install of an identifier since its last removal comes behind so many changes. -/
def ArrivesAt (changes : List Change) (id : String) (place : Nat) : Prop :=
  ∃ before rule after, changes = before ++ .install rule :: after ∧ before.length = place ∧
    rule.id = id ∧ (∀ earlier, ¬ LastInstall before id earlier) ∧ .erase id ∉ after

namespace RuleStore

def apply (s : RuleStore) : Change → RuleStore
  | .install rule => s.install rule
  | .erase id => s.erase id

/-- The store that the changes make of an empty one. -/
def replay (mode : Mode) (changes : List Change) : RuleStore :=
  changes.foldl apply (.empty mode)

theorem replay_concat (mode : Mode) (changes : List Change) (change : Change) :
    replay mode (changes ++ [change]) = (replay mode changes).apply change :=
  List.foldl_concat ..

/-- Something that may or may not be a change is made last. -/
theorem replay_append_toList (mode : Mode) (changes : List Change) (change? : Option Change) :
    replay mode (changes ++ change?.toList) =
      change?.elim (replay mode changes) (replay mode changes).apply := by
  cases change? with
  | none => rw [Option.toList_none, List.append_nil, Option.elim_none]
  | some change => exact replay_concat mode changes change

end RuleStore

/-! ### One change more -/

/-- A list that ends in one more element is divided at this one, or at one before it. -/
theorem concat_eq_append_cons_iff {α : Type} {xs before after : List α} {x y : α} :
    xs ++ [x] = before ++ y :: after ↔
      (after = [] ∧ xs = before ∧ x = y) ∨
        ∃ rest, after = rest ++ [x] ∧ xs = before ++ y :: rest := by
  rcases List.eq_nil_or_concat after with rfl | ⟨rest, last, rfl⟩
  · simp
  · rw [List.concat_eq_append, ← List.cons_append, ← List.append_assoc,
      List.append_singleton_inj]
    constructor
    · rintro ⟨rfl, rfl⟩
      exact .inr ⟨rest, rfl, rfl⟩
    · rintro (⟨hnil, -⟩ | ⟨rest', hrest, hxs⟩)
      · simp at hnil
      · obtain ⟨rfl, rfl⟩ := List.append_singleton_inj.1 hrest
        exact ⟨hxs, rfl⟩

theorem not_lastInstall_nil (id : String) (rule : Rule) : ¬ LastInstall [] id rule := by
  rintro ⟨before, after, h, -⟩
  simp at h

theorem not_arrivesAt_nil (id : String) (place : Nat) : ¬ ArrivesAt [] id place := by
  rintro ⟨before, rule, after, h, -⟩
  simp at h

section Concat

variable {changes : List Change} {change : Change} {id : String}

theorem lastInstall_concat_iff {rule : Rule} :
    LastInstall (changes ++ [change]) id rule ↔
      (change = .install rule ∧ rule.id = id) ∨
        (change.id ≠ id ∧ LastInstall changes id rule) := by
  constructor
  · rintro ⟨before, after, hchanges, hid, hafter⟩
    rcases concat_eq_append_cons_iff.1 hchanges with ⟨-, -, rfl⟩ | ⟨rest, rfl, rfl⟩
    · exact .inl ⟨rfl, hid⟩
    · refine .inr ⟨hafter change (by simp), before, rest, rfl, hid, ?_⟩
      intro later hlater
      exact hafter later (by simp [hlater])
  · rintro (⟨rfl, hid⟩ | ⟨hchange, before, after, rfl, hid, hafter⟩)
    · exact ⟨changes, [], rfl, hid, by simp⟩
    · refine ⟨before, after ++ [change], by simp, hid, ?_⟩
      intro later hlater
      rcases List.mem_append.1 hlater with hlater | hlater
      · exact hafter later hlater
      · rwa [List.mem_singleton.1 hlater]

theorem arrivesAt_concat_iff {place : Nat} :
    ArrivesAt (changes ++ [change]) id place ↔
      (ArrivesAt changes id place ∧ change ≠ .erase id) ∨
        (place = changes.length ∧
          ∃ rule, change = .install rule ∧ rule.id = id ∧
            ∀ earlier, ¬ LastInstall changes id earlier) := by
  constructor
  · rintro ⟨before, rule, after, hchanges, hplace, hid, hbefore, hafter⟩
    rcases concat_eq_append_cons_iff.1 hchanges with ⟨-, rfl, rfl⟩ | ⟨rest, rfl, rfl⟩
    · exact .inr ⟨hplace.symm, rule, rfl, hid, hbefore⟩
    · refine .inl ⟨⟨before, rule, rest, rfl, hplace, hid, hbefore, ?_⟩, ?_⟩
      · exact fun hmem => hafter (List.mem_append_left _ hmem)
      · rintro rfl
        exact hafter (by simp)
  · rintro (⟨⟨before, rule, after, rfl, hplace, hid, hbefore, hafter⟩, hchange⟩ |
      ⟨rfl, rule, rfl, hid, hbefore⟩)
    · refine ⟨before, rule, after ++ [change], by simp, hplace, hid, hbefore, ?_⟩
      rw [List.mem_append, List.mem_singleton]
      exact fun hmem => hmem.elim hafter fun heq => hchange heq.symm
    · exact ⟨changes, rule, [], rfl, rfl, hid, hbefore, by simp⟩

end Concat

theorem ArrivesAt.lt_length {changes : List Change} {id : String} {place : Nat}
    (h : ArrivesAt changes id place) : place < changes.length := by
  obtain ⟨before, rule, after, rfl, rfl, -⟩ := h
  simp

/-- What was installed last came at some place. -/
theorem exists_arrivesAt_iff (changes : List Change) (id : String) :
    (∃ place, ArrivesAt changes id place) ↔ ∃ rule, LastInstall changes id rule := by
  induction changes using List.reverseRecOn with
  | nil =>
      constructor
      · rintro ⟨place, h⟩
        exact absurd h (not_arrivesAt_nil id place)
      · rintro ⟨rule, h⟩
        exact absurd h (not_lastInstall_nil id rule)
  | append_singleton changes change ih =>
      simp only [arrivesAt_concat_iff, lastInstall_concat_iff]
      constructor
      · rintro ⟨place, ⟨harrives, hchange⟩ | ⟨-, rule, hrule, hid, -⟩⟩
        · obtain ⟨earlier, hearlier⟩ := ih.1 ⟨place, harrives⟩
          by_cases hid : change.id = id
          · cases change with
            | install rule => exact ⟨rule, .inl ⟨rfl, hid⟩⟩
            | erase other => exact absurd (congrArg Change.erase hid) hchange
          · exact ⟨earlier, .inr ⟨hid, hearlier⟩⟩
        · exact ⟨rule, .inl ⟨hrule, hid⟩⟩
      · rintro ⟨rule, ⟨rfl, hid⟩ | ⟨hid, hearlier⟩⟩
        · by_cases hstored : ∃ earlier, LastInstall changes id earlier
          · obtain ⟨place, harrives⟩ := ih.2 hstored
            exact ⟨place, .inl ⟨harrives, by simp⟩⟩
          · exact ⟨_, .inr ⟨rfl, rule, rfl, hid, fun earlier h => hstored ⟨earlier, h⟩⟩⟩
        · obtain ⟨place, harrives⟩ := ih.2 ⟨rule, hearlier⟩
          refine ⟨place, .inl ⟨harrives, ?_⟩⟩
          rintro rfl
          exact hid rfl

namespace RuleStore

/-! ### Stores after their changes -/

theorem Coherent.apply {s : RuleStore} (h : s.Coherent) (change : Change) :
    (s.apply change).Coherent := by
  cases change with
  | install rule => exact h.install rule
  | erase id => exact h.erase id

theorem Coherent.get?_apply_of_ne {s : RuleStore} (h : s.Coherent) {change : Change} {id : String}
    (hid : id ≠ change.id) : (s.apply change).get? id = s.get? id := by
  cases change with
  | install rule => exact (h.get?_install rule id).trans (if_neg hid)
  | erase other => exact (h.get?_erase other id).trans (if_neg hid)

theorem coherent_replay (mode : Mode) (changes : List Change) :
    (replay mode changes).Coherent := by
  induction changes using List.reverseRecOn with
  | nil => exact coherent_empty mode
  | append_singleton changes change ih =>
      rw [replay_concat]
      exact ih.apply change

/-- What is found under an identifier was installed last there, and not removed since. -/
theorem get?_replay_eq_some_iff (mode : Mode) (changes : List Change) (id : String)
    (rule : Rule) : (replay mode changes).get? id = some rule ↔ LastInstall changes id rule := by
  induction changes using List.reverseRecOn with
  | nil =>
      have hnone : (replay mode []).get? id = none := get?_empty mode id
      simp [hnone, not_lastInstall_nil]
  | append_singleton changes change ih =>
      have hcoherent := coherent_replay mode changes
      rw [replay_concat, lastInstall_concat_iff, ← ih]
      cases change with
      | install other =>
          rw [apply, hcoherent.get?_install]
          by_cases hid : id = other.id
          · subst hid
            simp only [Change.id, if_pos, Option.some.injEq, Change.install.injEq]
            constructor
            · rintro rfl
              exact .inl ⟨rfl, rfl⟩
            · rintro (⟨heq, -⟩ | ⟨hne, -⟩)
              · exact heq
              · exact absurd rfl hne
          · rw [if_neg hid]
            constructor
            · intro hget
              exact .inr ⟨Ne.symm hid, hget⟩
            · rintro (⟨heq, hrule⟩ | ⟨-, hget⟩)
              · cases heq
                exact absurd hrule.symm hid
              · exact hget
      | erase other =>
          rw [apply, hcoherent.get?_erase]
          by_cases hid : id = other
          · simp [hid, Change.id]
          · simp [hid, Change.id, Ne.symm hid]

theorem mem_ids_replay_iff (mode : Mode) (changes : List Change) (id : String) :
    id ∈ (replay mode changes).ids ↔ ∃ place, ArrivesAt changes id place := by
  rw [(coherent_replay mode changes).mem_ids_iff, Option.isSome_iff_exists, exists_arrivesAt_iff]
  simp only [get?_replay_eq_some_iff]

/-! ### The order of a phased store -/

theorem ids_apply_phased {s : RuleStore} (h : s.Coherent) (hmode : s.mode = .phased)
    (change : Change) :
    (s.apply change).ids =
      match change with
      | .install rule => if rule.id ∈ s.ids then s.ids else s.ids ++ [rule.id]
      | .erase id => s.ids.filter (· ≠ id) := by
  cases s with
  | concurrent rules => cases hmode
  | phased table =>
      cases change with
      | install rule => exact RuleTable.WellIndexed.ids_install h rule
      | erase id => exact RuleTable.WellIndexed.ids_erase h id

theorem mode_apply (s : RuleStore) (change : Change) : (s.apply change).mode = s.mode := by
  cases change with
  | install rule => exact s.mode_install rule
  | erase id => exact s.mode_erase id

theorem mode_replay (mode : Mode) (changes : List Change) : (replay mode changes).mode = mode := by
  induction changes using List.reverseRecOn with
  | nil => exact mode_empty mode
  | append_singleton changes change ih => rw [replay_concat, mode_apply, ih]

/-- An identifier that is there stays at the place where it came. -/
theorem arrivesAt_of_concat {mode : Mode} {changes : List Change} {change : Change} {id : String}
    {place : Nat} (hid : id ∈ (replay mode changes).ids)
    (h : ArrivesAt (changes ++ [change]) id place) : ArrivesAt changes id place := by
  rcases arrivesAt_concat_iff.1 h with ⟨harrives, -⟩ | ⟨-, -, -, -, habsent⟩
  · exact harrives
  · obtain ⟨rule, hrule⟩ :=
      (exists_arrivesAt_iff changes id).1 ((mem_ids_replay_iff mode changes id).1 hid)
    exact absurd hrule (habsent rule)

/-- A phased store lists the identifiers in the order in which they came. -/
theorem pairwise_ids_replay (changes : List Change) :
    (replay .phased changes).ids.Pairwise fun a b =>
      ∀ i j, ArrivesAt changes a i → ArrivesAt changes b j → i < j := by
  induction changes using List.reverseRecOn with
  | nil => exact List.Pairwise.nil
  | append_singleton changes change ih =>
      have hkept : (replay .phased changes).ids.Pairwise fun a b => ∀ i j,
          ArrivesAt (changes ++ [change]) a i → ArrivesAt (changes ++ [change]) b j → i < j := by
        apply ih.imp_of_mem
        intro a b ha hb hlt i j hi hj
        exact hlt i j (arrivesAt_of_concat ha hi) (arrivesAt_of_concat hb hj)
      rw [replay_concat, ids_apply_phased (coherent_replay _ _) (mode_replay _ _)]
      cases change with
      | install rule =>
          dsimp only
          split
          · exact hkept
          · next habsent =>
              refine List.pairwise_append.2 ⟨hkept, List.pairwise_singleton _ _, ?_⟩
              intro a ha b hb i j hi hj
              obtain rfl := List.mem_singleton.1 hb
              rcases arrivesAt_concat_iff.1 hj with ⟨hold, -⟩ | ⟨rfl, -⟩
              · exact absurd ((mem_ids_replay_iff _ _ _).2 ⟨j, hold⟩) habsent
              · exact (arrivesAt_of_concat ha hi).lt_length
      | erase id => exact hkept.sublist List.filter_sublist

end RuleStore

end RecordRules
