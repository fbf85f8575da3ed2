import Mathlib.Data.List.Nodup
import RecordRules.Proofs.Repository.Table

/-!
Stores of either mode as finite maps.  A coherent store keeps each rule under its own identifier;
storing, removing and reading then do what a map from identifiers to rules does, and two such
stores that agree on every identifier list the same rules, if perhaps in another order.
-/

namespace RecordRules

theorem Rule.compile_eq_ok_iff (c : Compiler) (id text : String) (rule : Rule) :
    Rule.compile c id text = .ok rule ↔
      ∃ p, c.compile text = .ok p ∧ rule = ⟨id, text, p⟩ := by
  rw [compile]
  cases c.compile text with
  | error cause => simp
  | ok p => simp [eq_comm]

namespace RuleTable

theorem WellIndexed.nodup_keys {t : RuleTable} (w : t.WellIndexed) :
    (t.entries.map Prod.fst).Nodup := by
  rw [map_fst_entries]
  exact w.nodup

/-- The identifiers after a rule was stored: its own comes last if it was not there. -/
theorem WellIndexed.ids_install {t : RuleTable} (w : t.WellIndexed) (rule : Rule) :
    (t.install rule).ids = if rule.id ∈ t.ids then t.ids else t.ids ++ [rule.id] := by
  rw [← map_fst_entries, w.entries_install, Listing.map_fst_put, map_fst_entries]

theorem WellIndexed.ids_erase {t : RuleTable} (w : t.WellIndexed) (id : String) :
    (t.erase id).ids = t.ids.filter (· ≠ id) := by
  rw [← map_fst_entries, w.entries_erase, Listing.map_fst_remove, map_fst_entries]

theorem WellIndexed.mem_toList_iff {t : RuleTable} (w : t.WellIndexed) (rule : Rule) :
    rule ∈ t.toList ↔ t.get? rule.id = some rule := by
  rw [w.get?_eq_lookup, Listing.lookup_eq_some_iff_mem w.nodup_keys, entries]
  simp

theorem WellIndexed.id_eq_of_get? {t : RuleTable} (w : t.WellIndexed) {id : String} {rule : Rule}
    (h : t.get? id = some rule) : rule.id = id := by
  rw [w.get?_eq_lookup, Listing.lookup_eq_some_iff_mem w.nodup_keys, entries, List.mem_map] at h
  obtain ⟨_, _, heq⟩ := h
  cases heq
  rfl

end RuleTable

namespace RuleStore

/-- Every rule is kept under its own identifier, and a phased store has an index that says so. -/
def Coherent : RuleStore → Prop
  | .concurrent rules => ∀ (id : String) (rule : Rule), rules[id]? = some rule → rule.id = id
  | .phased table => table.WellIndexed

def ids (s : RuleStore) : List String :=
  s.toList.map (·.id)

theorem coherent_empty (mode : Mode) : (empty mode).Coherent := by
  cases mode with
  | concurrent =>
      intro id rule h
      rw [Std.HashMap.getElem?_empty] at h
      cases h
  | phased => exact RuleTable.wellIndexed_empty

theorem get?_empty (mode : Mode) (id : String) : (empty mode).get? id = none := by
  cases mode with
  | concurrent => exact Std.HashMap.getElem?_empty
  | phased =>
      have h : RuleTable.empty.index[id]? = none := Std.HashMap.getElem?_empty
      rw [empty, get?, RuleTable.get?, h]

theorem mode_install (s : RuleStore) (rule : Rule) : (s.install rule).mode = s.mode := by
  cases s <;> rfl

theorem mode_erase (s : RuleStore) (id : String) : (s.erase id).mode = s.mode := by
  cases s <;> rfl

theorem mode_empty (mode : Mode) : (empty mode).mode = mode := by
  cases mode <;> rfl

namespace Coherent

variable {s : RuleStore} (h : s.Coherent)

include h

theorem install (rule : Rule) : (s.install rule).Coherent := by
  cases s with
  | concurrent rules =>
      intro id found hfound
      rw [Std.HashMap.getElem?_insert] at hfound
      split at hfound
      · next hid =>
          cases hfound
          exact beq_iff_eq.1 hid
      · exact h id found hfound
  | phased table => exact RuleTable.WellIndexed.install h rule

theorem erase (id : String) : (s.erase id).Coherent := by
  cases s with
  | concurrent rules =>
      intro other found hfound
      rw [Std.HashMap.getElem?_erase] at hfound
      split at hfound
      · cases hfound
      · exact h other found hfound
  | phased table => exact RuleTable.WellIndexed.erase h id

/-! ### What is found -/

theorem get?_install (rule : Rule) (id : String) :
    (s.install rule).get? id = if id = rule.id then some rule else s.get? id := by
  cases s with
  | concurrent rules =>
      rw [RuleStore.install, get?, get?, Std.HashMap.getElem?_insert]
      simp only [beq_iff_eq, @eq_comm _ id]
  | phased table =>
      have w : table.WellIndexed := h
      rw [RuleStore.install, get?, get?, (w.install rule).get?_eq_lookup, w.entries_install,
        Listing.lookup_put, w.get?_eq_lookup]

theorem get?_erase (id other : String) :
    (s.erase id).get? other = if other = id then none else s.get? other := by
  cases s with
  | concurrent rules =>
      rw [RuleStore.erase, get?, get?, Std.HashMap.getElem?_erase]
      simp only [beq_iff_eq, @eq_comm _ other]
  | phased table =>
      have w : table.WellIndexed := h
      rw [RuleStore.erase, get?, get?, (w.erase id).get?_eq_lookup, w.entries_erase,
        Listing.lookup_remove, w.get?_eq_lookup]

theorem id_eq_of_get? {id : String} {rule : Rule} (hget : s.get? id = some rule) :
    rule.id = id := by
  cases s with
  | concurrent rules => exact h id rule hget
  | phased table => exact RuleTable.WellIndexed.id_eq_of_get? h hget

theorem contains_eq (id : String) : s.contains id = (s.get? id).isSome := by
  cases s with
  | concurrent rules => exact Std.HashMap.contains_eq_isSome_getElem?
  | phased table =>
      have w : table.WellIndexed := h
      rw [contains, get?, w.contains_eq_decide_mem, w.get?_eq_lookup, Bool.eq_iff_iff,
        decide_eq_true_iff, List.lookup_isSome_iff]
      simp

/-! ### What is listed -/

theorem mem_toList_iff (rule : Rule) : rule ∈ s.toList ↔ s.get? rule.id = some rule := by
  cases s with
  | concurrent rules =>
      rw [toList, get?, List.mem_map]
      constructor
      · rintro ⟨⟨id, found⟩, hmem, rfl⟩
        have hget := Std.HashMap.mem_toList_iff_getElem?_eq_some.1 hmem
        rw [h id found hget]
        exact hget
      · intro hget
        exact ⟨(rule.id, rule), Std.HashMap.mem_toList_iff_getElem?_eq_some.2 hget, rfl⟩
  | phased table => exact RuleTable.WellIndexed.mem_toList_iff h rule

theorem nodup_ids : s.ids.Nodup := by
  cases s with
  | concurrent rules =>
      have hkeys : ids (.concurrent rules) = rules.toList.map Prod.fst := by
        rw [ids, toList, List.map_map]
        apply List.map_congr_left
        rintro ⟨id, rule⟩ hmem
        exact h id rule (Std.HashMap.mem_toList_iff_getElem?_eq_some.1 hmem)
      rw [hkeys, Std.HashMap.map_fst_toList_eq_keys]
      exact Std.HashMap.nodup_keys
  | phased table => exact RuleTable.WellIndexed.nodup h

theorem nodup_toList : s.toList.Nodup :=
  List.Nodup.of_map _ h.nodup_ids

theorem mem_ids_iff (id : String) : id ∈ s.ids ↔ (s.get? id).isSome := by
  rw [ids, List.mem_map, Option.isSome_iff_exists]
  constructor
  · rintro ⟨rule, hmem, rfl⟩
    exact ⟨rule, (h.mem_toList_iff rule).1 hmem⟩
  · rintro ⟨rule, hget⟩
    have hid := h.id_eq_of_get? hget
    exact ⟨rule, (h.mem_toList_iff rule).2 (hid ▸ hget), hid⟩

omit h in
theorem size_eq : s.size = s.toList.length := by
  cases s with
  | concurrent rules => rw [size, toList, List.length_map, Std.HashMap.length_toList]
  | phased table => rfl

/-- Two stores in which the same is found under every identifier list the same rules. -/
theorem perm_toList {t : RuleStore} (ht : t.Coherent) (heq : ∀ id, s.get? id = t.get? id) :
    s.toList.Perm t.toList := by
  apply (List.perm_ext_iff_of_nodup h.nodup_toList ht.nodup_toList).2
  intro rule
  rw [h.mem_toList_iff, ht.mem_toList_iff, heq]

end Coherent

end RuleStore

end RecordRules
