import Mathlib.Data.Nat.Find
import RecordRules.Proofs.Random.Record

/-!
Drawing again from a band.  An integer is wanted that is none of the sample values of a field.  The
first of the integers drawn that is none of them is kept, and no further one is drawn; the eighth is
kept whatever it is.
-/

namespace RecordRules

namespace Band

/-- Of integers drawn one after the other, the one behind `k` others is to be kept: all before it
are among the values, and it is not, unless it is the last that may be drawn. -/
structure Settles (drawn : Nat → Int64) (values : List Value) (again k : Nat) : Prop where
  le : k ≤ again
  mem_of_lt : ∀ i < k, .int (drawn i) ∈ values
  not_mem : k < again → .int (drawn k) ∉ values

theorem exists_settles (drawn : Nat → Int64) (values : List Value) (again : Nat) :
    ∃ k, Settles drawn values again k := by
  by_cases h : ∃ k < again, .int (drawn k) ∉ values
  · obtain ⟨hlt, hnot⟩ := Nat.find_spec h
    refine ⟨Nat.find h, Nat.le_of_lt hlt, ?_, fun _ => hnot⟩
    intro i hi
    by_contra hmem
    exact Nat.find_min h hi ⟨Nat.lt_trans hi hlt, hmem⟩
  · refine ⟨again, Nat.le_refl again, ?_, fun hlt => absurd hlt (Nat.lt_irrefl again)⟩
    intro i hi
    by_contra hmem
    exact h ⟨i, hi, hmem⟩

/-- If all up to the last are among the values, none was kept before the last. -/
theorem Settles.eq_of_mem {drawn : Nat → Int64} {values : List Value} {again k : Nat}
    (h : Settles drawn values again k) (hmem : .int (drawn k) ∈ values) : k = again := by
  by_contra hne
  exact h.not_mem (Nat.lt_of_le_of_ne h.le hne) hmem

section Runs

variable (b : Band) (values : List Value) (words : Words)

/-- One draw, and further ones if it is among the values. -/
theorem run_drawOutside_succ (again : Nat) :
    (b.drawOutside values (again + 1)).run words =
      if values.contains (.int (b.draw.run words).1) then
        (b.drawOutside values again).run (b.draw.run words).2
      else
        b.draw.run words := by
  rw [drawOutside, Draw.run_bind]
  split
  · rfl
  · rfl

variable {values words}

/-- For each value that is dropped there is one draw more behind and one fewer ahead. -/
theorem run_drawOutside_add {k : Nat} (again : Nat)
    (h : ∀ i < k, .int (b.draw.nth words i) ∈ values) :
    (b.drawOutside values (k + again)).run words =
      (b.drawOutside values again).run (b.draw.behind words k) := by
  induction k generalizing again with
  | zero => rw [Nat.zero_add]; rfl
  | succ k ih =>
      have hdropped : values.contains (.int (b.draw.nth words k)) = true :=
        List.contains_iff_mem.2 (h k (Nat.lt_succ_self k))
      calc
        (b.drawOutside values (k + 1 + again)).run words =
            (b.drawOutside values (k + (again + 1))).run words := by
          rw [Nat.add_right_comm, Nat.add_assoc]
        _ = (b.drawOutside values (again + 1)).run (b.draw.behind words k) :=
          ih (again + 1) fun i hi => h i (Nat.lt_succ_of_lt hi)
        _ = (b.drawOutside values again).run (b.draw.behind words (k + 1)) :=
          (run_drawOutside_succ b values _ again).trans (if_pos hdropped)

/-- The integer to be kept is the result, and nothing is drawn behind it. -/
theorem Settles.run_drawOutside {again k : Nat} (h : Settles (b.draw.nth words) values again k) :
    (b.drawOutside values again).run words =
      (b.draw.nth words k, b.draw.behind words (k + 1)) := by
  obtain ⟨ahead, rfl⟩ := Nat.exists_eq_add_of_le h.le
  rw [run_drawOutside_add b ahead h.mem_of_lt]
  cases ahead with
  | zero => rfl
  | succ ahead =>
      have hkept : ¬ values.contains (.int (b.draw.nth words k)) = true := by
        rw [List.contains_iff_mem]
        exact h.not_mem (Nat.lt_add_of_pos_right ahead.succ_pos)
      exact (run_drawOutside_succ b values _ ahead).trans (if_neg hkept)

end Runs

/-- From a band that is not empty, the first integer drawn that is no sample value of the field is
kept, or the eighth if the first seven all are sample values; as many are drawn as up to that one.
So the result is a sample value only if the first eight are.  A band without sample values takes one
draw, and of a band of nothing but sample values the eighth is kept. -/
theorem drawOutside_keeps_first (b : Band) (hb : 0 < b.width) (f : FieldDecl) (words : Words) :
    let drawn := b.draw.nth words
    let result := (b.drawOutside f.domain RandomRecords.redraws).run words
    (∃ k, Settles drawn f.domain 7 k ∧ result = (drawn k, b.draw.behind words (k + 1))) ∧
      (.int result.1 ∈ f.domain ↔ ∀ i < 8, .int (drawn i) ∈ f.domain) ∧
      ((∀ i, b.Holds i → .int i ∉ f.domain) → result = (drawn 0, b.draw.behind words 1)) ∧
      ((∀ i, b.Holds i → .int i ∈ f.domain) → result = (drawn 7, b.draw.behind words 8)) := by
  intro drawn result
  have hdrawn : ∀ i, b.Holds (drawn i) := (yields_draw Words.lasting_true hb).nth trivial
  obtain ⟨k, hk⟩ := exists_settles drawn f.domain 7
  have hresult : result = (drawn k, b.draw.behind words (k + 1)) := hk.run_drawOutside b
  refine ⟨⟨k, hk, hresult⟩, ?_, ?_, ?_⟩
  · rw [hresult]
    constructor
    · intro hmem i hi
      obtain rfl := hk.eq_of_mem hmem
      rcases Nat.lt_succ_iff_lt_or_eq.1 hi with hlt | rfl
      · exact hk.mem_of_lt i hlt
      · exact hmem
    · intro hall
      exact hall k (Nat.lt_succ_of_le hk.le)
  · intro hfree
    have hzero : k = 0 := by
      by_contra hne
      exact hfree _ (hdrawn 0) (hk.mem_of_lt 0 (Nat.pos_of_ne_zero hne))
    rw [hresult, hzero]
  · intro hcovered
    obtain rfl := hk.eq_of_mem (hcovered _ (hdrawn k))
    exact hresult

/-- The users of the payment workload, with a band that is one of their numbers and a band below
all of them. -/
theorem drawOutside_keeps_first_user_id :
    let f := FieldDecl.integer "user_id" [12345, 67890, 13579, 24680]
    let words := Words.ofListed #[] 7
    let covered : Band := ⟨12345, 12345⟩
    let free : Band := ⟨-5, 9999⟩
    (0 < covered.width ∧ (∀ i, covered.Holds i → .int i ∈ f.domain) ∧
        (covered.drawOutside f.domain RandomRecords.redraws).run words =
          (covered.draw.nth words 7, covered.draw.behind words 8)) ∧
      (0 < free.width ∧ (∀ i, free.Holds i → .int i ∉ f.domain) ∧
        (free.drawOutside f.domain RandomRecords.redraws).run words =
          (free.draw.nth words 0, free.draw.behind words 1)) := by
  intro f words covered free
  have hcovered : ∀ i, covered.Holds i → .int i ∈ f.domain := by
    rintro i ⟨hfirst, hlast⟩
    obtain rfl : i = 12345 := Int64.le_antisymm hlast hfirst
    decide
  have hfree : ∀ i, free.Holds i → .int i ∉ f.domain := by
    rintro i ⟨-, hlast⟩ hmem
    have habove : ∀ j, .int j ∈ f.domain → ¬ j ≤ (9999 : Int64) := by
      intro j hj
      have hsample : j = 12345 ∨ j = 67890 ∨ j = 13579 ∨ j = 24680 := by
        simpa [f, FieldDecl.integer] using hj
      rcases hsample with rfl | rfl | rfl | rfl <;> decide
    exact habove i hmem hlast
  refine ⟨⟨by decide, hcovered, ?_⟩, by decide, hfree, ?_⟩
  · exact (drawOutside_keeps_first covered (by decide) f words).2.2.2 hcovered
  · exact (drawOutside_keeps_first free (by decide) f words).2.2.1 hfree

end Band

end RecordRules
