import Mathlib.Data.List.InsertIdx
import RecordRules.Proofs.Repository.Listing

/-!
The index of a table and the identifiers of its rules are inverse to each other.  Storing and
removing keep them so, and do to the entries what the insertion-ordered map does.
-/

namespace RecordRules

namespace RuleTable

def ids (t : RuleTable) : List String :=
  t.toList.map Rule.id

/-- The index has one position for each rule, namely that of its identifier, and no identifier
occurs twice. -/
structure WellIndexed (t : RuleTable) : Prop where
  size_eq : t.index.size = t.rules.size
  position_iff : ∀ (id : String) (i : Nat),
    t.index[id]? = some i ↔ ∃ h : i < t.rules.size, t.rules[i].id = id
  nodup : t.ids.Nodup

/-- The rules under their identifiers, in the order of the table. -/
def entries (t : RuleTable) : Listing :=
  t.toList.map fun rule => (rule.id, rule)

theorem map_fst_entries (t : RuleTable) : t.entries.map Prod.fst = t.ids := by
  rw [entries, List.map_map]
  rfl

theorem rules_entries (t : RuleTable) : t.entries.rules = t.toList := by
  rw [Listing.rules, entries, List.map_map]
  exact List.map_id t.toList

theorem length_entries (t : RuleTable) : t.entries.length = t.rules.size := by
  rw [entries, List.length_map, toList, Array.length_toList]

theorem length_ids (t : RuleTable) : t.ids.length = t.rules.size := by
  rw [ids, List.length_map, toList, Array.length_toList]

theorem getElem?_concat_eq_some_iff {ids : List String} {last id : String} {i : Nat} :
    (ids ++ [last])[i]? = some id ↔ ids[i]? = some id ∨ i = ids.length ∧ last = id := by
  rcases Nat.lt_trichotomy i ids.length with hlt | rfl | hgt
  · rw [List.getElem?_append_left hlt]
    simp [Nat.ne_of_lt hlt]
  · simp
  · rw [List.getElem?_eq_none (by simp; omega), List.getElem?_eq_none (Nat.le_of_lt hgt)]
    simp [Nat.ne_of_gt hgt]

/-- A rule at a position, seen from the list of the identifiers. -/
theorem getElem?_ids_eq_some_iff {t : RuleTable} {id : String} {i : Nat} :
    t.ids[i]? = some id ↔ ∃ h : i < t.rules.size, t.rules[i].id = id := by
  rw [ids, toList, List.getElem?_map, Array.getElem?_toList, Option.map_eq_some_iff]
  constructor
  · rintro ⟨rule, hrule, hid⟩
    obtain ⟨hlt, hget⟩ := Array.getElem?_eq_some_iff.1 hrule
    exact ⟨hlt, by rw [hget, hid]⟩
  · rintro ⟨hlt, hid⟩
    exact ⟨t.rules[i], Array.getElem?_eq_getElem hlt, hid⟩

namespace WellIndexed

/-- It is enough that index and identifiers agree position by position. -/
theorem of_positions {t : RuleTable} (hsize : t.index.size = t.rules.size)
    (h : ∀ (id : String) (i : Nat), t.index[id]? = some i ↔ t.ids[i]? = some id) :
    t.WellIndexed where
  size_eq := hsize
  position_iff := fun id i => (h id i).trans getElem?_ids_eq_some_iff
  nodup := by
    rw [List.nodup_iff_pairwise_ne, List.pairwise_iff_getElem]
    intro i j hi hj hij heq
    have hposi := (h _ i).2 (List.getElem?_eq_getElem hi)
    have hposj := (h _ j).2 (List.getElem?_eq_getElem hj)
    rw [heq, hposj, Option.some.injEq] at hposi
    omega

variable {t : RuleTable} (w : t.WellIndexed)

include w

theorem position_iff_ids (id : String) (i : Nat) :
    t.index[id]? = some i ↔ t.ids[i]? = some id :=
  (w.position_iff id i).trans getElem?_ids_eq_some_iff.symm

/-- The index never points behind the rules. -/
theorem lt_size {id : String} {i : Nat} (h : t.index[id]? = some i) : i < t.rules.size :=
  ((w.position_iff id i).1 h).1

/-- Two identifiers do not share a position. -/
theorem id_eq_of_position {id other : String} {i : Nat} (h : t.index[id]? = some i)
    (hother : t.index[other]? = some i) : id = other := by
  obtain ⟨_, hid⟩ := (w.position_iff id i).1 h
  obtain ⟨_, hid'⟩ := (w.position_iff other i).1 hother
  exact hid.symm.trans hid'

theorem mem_entries_iff (id : String) :
    id ∈ t.entries.map Prod.fst ↔ ∃ i, t.index[id]? = some i := by
  rw [map_fst_entries, List.mem_iff_getElem?]
  exact exists_congr fun i => (w.position_iff_ids id i).symm

theorem not_mem_entries {id : String} (h : t.index[id]? = none) :
    id ∉ t.entries.map Prod.fst := by
  rw [w.mem_entries_iff]
  rintro ⟨i, hi⟩
  rw [h] at hi
  cases hi

/-- The entry at an indexed position is the only one with its identifier. -/
theorem exists_split {id : String} {position : Nat} (h : t.index[id]? = some position) :
    ∃ before old after, t.entries = before ++ (id, old) :: after ∧
      before.length = position ∧ t.rules[position]? = some old ∧
      id ∉ before.map Prod.fst ∧ id ∉ after.map Prod.fst := by
  obtain ⟨hlt, hid⟩ := (w.position_iff id position).1 h
  have hlength : position < t.entries.length := by
    rwa [length_entries]
  have hget : t.entries[position] = (id, t.rules[position]) := by
    simp [entries, toList, hid]
  have hsplit : t.entries = t.entries.take position ++
      (id, t.rules[position]) :: t.entries.drop (position + 1) := by
    rw [← hget, ← List.drop_eq_getElem_cons hlength, List.take_append_drop]
  have hnodup : (t.entries.map Prod.fst).Nodup := by
    rw [map_fst_entries]
    exact w.nodup
  rw [hsplit, List.map_append, List.map_cons, List.nodup_append, List.nodup_cons] at hnodup
  refine ⟨_, _, _, hsplit, ?_, Array.getElem?_eq_getElem hlt, ?_, hnodup.2.1.1⟩
  · rw [List.length_take]
    omega
  · intro hmem
    exact hnodup.2.2 id hmem id (List.mem_cons_self ..) rfl

end WellIndexed

/-! ### What the operations do to the rules -/

section Operations

variable {t : RuleTable} {id : String} {position : Nat}

theorem toList_install_of_position {rule : Rule} (h : t.index[rule.id]? = some position) :
    (t.install rule).toList = t.toList.set position rule := by
  rw [install, h]
  exact Array.toList_setIfInBounds

theorem toList_install_of_none {rule : Rule} (h : t.index[rule.id]? = none) :
    (t.install rule).toList = t.toList ++ [rule] := by
  rw [install, h]
  exact Array.toList_push

theorem toList_erase_of_position (h : t.index[id]? = some position) :
    (t.erase id).toList = t.toList.eraseIdx position := by
  rw [erase, h]
  exact Array.toList_eraseIdxIfInBounds

theorem erase_of_none (h : t.index[id]? = none) : t.erase id = t := by
  rw [erase, h]

theorem index_install_of_none {rule : Rule} (h : t.index[rule.id]? = none) (other : String) :
    (t.install rule).index[other]? =
      if rule.id = other then some t.rules.size else t.index[other]? := by
  rw [install, h]
  simp only [Std.HashMap.getElem?_insert, beq_iff_eq]

theorem index_erase_of_position (h : t.index[id]? = some position) (other : String) :
    (t.erase id).index[other]? =
      if id = other then none
      else t.index[other]?.map fun p => if position < p then p - 1 else p := by
  rw [erase, h]
  simp only [Std.HashMap.getElem?_map, Std.HashMap.getElem?_erase, beq_iff_eq]
  split <;> rfl

/-- The identifiers behind the removed one move up by one position. -/
theorem getElem?_ids_erase (h : t.index[id]? = some position) (i : Nat) :
    (t.erase id).ids[i]? = t.ids[if i < position then i else i + 1]? := by
  rw [ids, toList_erase_of_position h, ← List.eraseIdx_map, List.getElem?_eraseIdx, ids]
  split <;> rfl

end Operations

namespace WellIndexed

variable {t : RuleTable} (w : t.WellIndexed)

include w

/-- Storing a rule puts it into the entries. -/
theorem entries_install (rule : Rule) :
    (t.install rule).entries = t.entries.put rule.id rule := by
  cases h : t.index[rule.id]? with
  | none =>
      rw [Listing.put_of_not_mem (w.not_mem_entries h), entries, toList_install_of_none h,
        List.map_append, List.map_singleton, entries]
  | some position =>
      obtain ⟨before, old, after, hsplit, hlength, _, hbefore, hafter⟩ := w.exists_split h
      have hset : (t.install rule).entries = t.entries.set position (rule.id, rule) := by
        rw [entries, toList_install_of_position h, List.map_set, entries]
      rw [hset, hsplit, Listing.put_append_cons old hbefore hafter, ← hlength,
        List.set_append_right _ _ (Nat.le_refl _), Nat.sub_self, List.set_cons_zero]

/-- Removing a rule takes it out of the entries. -/
theorem entries_erase (id : String) : (t.erase id).entries = t.entries.remove id := by
  cases h : t.index[id]? with
  | none => rw [erase_of_none h, Listing.remove_of_not_mem (w.not_mem_entries h)]
  | some position =>
      obtain ⟨before, old, after, hsplit, hlength, _, hbefore, hafter⟩ := w.exists_split h
      have herase : (t.erase id).entries = t.entries.eraseIdx position := by
        rw [entries, toList_erase_of_position h, ← List.eraseIdx_map, entries]
      rw [herase, hsplit, Listing.remove_append_cons old hbefore hafter, ← hlength,
        List.eraseIdx_append_of_length_le (Nat.le_refl _), Nat.sub_self, List.eraseIdx_cons_zero]

/-- The table finds the rule that the entries list. -/
theorem get?_eq_lookup (id : String) : t.get? id = t.entries.lookup id := by
  rw [get?]
  cases h : t.index[id]? with
  | none => rw [Listing.lookup_of_not_mem (w.not_mem_entries h)]
  | some position =>
      obtain ⟨before, old, after, hsplit, _, hold, hbefore, _⟩ := w.exists_split h
      rw [hsplit, Listing.lookup_append_cons old hbefore]
      exact hold

theorem contains_eq_decide_mem (id : String) :
    t.contains id = decide (id ∈ t.entries.map Prod.fst) := by
  rw [contains, Bool.eq_iff_iff, decide_eq_true_iff, w.mem_entries_iff,
    Std.HashMap.contains_eq_isSome_getElem?, Option.isSome_iff_exists]

/-- Storing keeps index and rules in step. -/
theorem install (rule : Rule) : (t.install rule).WellIndexed := by
  cases h : t.index[rule.id]? with
  | none =>
      have hnew : rule.id ∉ t.index := by
        rw [Std.HashMap.mem_iff_isSome_getElem?, h]
        simp
      have hids : (t.install rule).ids = t.ids ++ [rule.id] := by
        rw [ids, toList_install_of_none h, List.map_append, List.map_singleton, ids]
      apply of_positions
      · rw [RuleTable.install, h]
        simp only [Std.HashMap.size_insert, if_neg hnew, Array.size_push, w.size_eq]
      · intro id i
        rw [index_install_of_none h, hids, getElem?_concat_eq_some_iff, length_ids,
          ← w.position_iff_ids]
        by_cases hid : rule.id = id
        · subst hid
          rw [if_pos rfl, h]
          simp [eq_comm]
        · rw [if_neg hid]
          simp [hid]
  | some position =>
      have hids : (t.install rule).ids = t.ids := by
        have hmem := (w.mem_entries_iff rule.id).2 ⟨position, h⟩
        rw [← map_fst_entries, w.entries_install, Listing.put, if_pos hmem,
          Listing.map_fst_replace, map_fst_entries]
      apply of_positions
      · rw [RuleTable.install, h]
        simp only [Array.size_setIfInBounds, w.size_eq]
      · intro id i
        rw [hids, ← w.position_iff_ids, RuleTable.install, h]

/-- After a removal the index has for each identifier the position that its rule moved to. -/
theorem position_erase_iff {id : String} {position : Nat} (h : t.index[id]? = some position)
    (other : String) (i : Nat) :
    (t.erase id).index[other]? = some i ↔
      t.index[other]? = some (if i < position then i else i + 1) := by
  rw [index_erase_of_position h]
  by_cases hid : id = other
  · subst hid
    rw [if_pos rfl, h, Option.some.injEq]
    constructor
    · intro hnone
      cases hnone
    · intro heq
      split at heq <;> omega
  · rw [if_neg hid, Option.map_eq_some_iff]
    constructor
    · rintro ⟨p, hp, hi⟩
      have hne : p ≠ position := by
        rintro rfl
        exact hid (w.id_eq_of_position h hp)
      have heq : (if i < position then i else i + 1) = p := by
        subst hi
        split <;> split <;> omega
      rw [heq, hp]
    · intro hindex
      refine ⟨_, hindex, ?_⟩
      split <;> split <;> omega

/-- Removing keeps index and rules in step. -/
theorem erase (id : String) : (t.erase id).WellIndexed := by
  cases h : t.index[id]? with
  | none => rwa [erase_of_none h]
  | some position =>
      have hmem : id ∈ t.index := by
        rw [Std.HashMap.mem_iff_isSome_getElem?, h]
        rfl
      apply of_positions
      · rw [RuleTable.erase, h]
        simp only [Std.HashMap.size_map, Std.HashMap.size_erase, if_pos hmem, w.size_eq,
          Array.eraseIdxIfInBounds_eq, dif_pos (w.lt_size h), Array.size_eraseIdx]
      · intro other i
        rw [w.position_erase_iff h, getElem?_ids_erase h]
        exact w.position_iff_ids other _

end WellIndexed

theorem wellIndexed_empty : empty.WellIndexed :=
  .of_positions rfl fun id i => by simp [empty, ids, toList]

theorem entries_empty : empty.entries = [] := rfl

end RuleTable

end RecordRules
