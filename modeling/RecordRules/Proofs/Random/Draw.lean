import Mathlib.Data.Fin.SuccPred
import Mathlib.Data.List.FinRange
import RecordRules.Random.Sample

/-!
What random choices guarantee, whatever the words of the source are.  A guarantee is stated for
all sources with some property that outlasts the words that are taken, and holds of the result.
-/

namespace RecordRules

/-- A property of sources that is still there when a word has been taken. -/
def Words.Lasting (P : Words → Prop) : Prop :=
  ∀ words, P words → P (Draw.word.run words).2

theorem Words.lasting_true : Words.Lasting fun _ => True :=
  fun _ _ => trivial

namespace Draw

variable {α β : Type} {P : Words → Prop}

/-- Some source lets the event happen. -/
def Possible (event : Draw Bool) : Prop :=
  ∃ words, (event.run words).1 = true

/-- From every source with the property `P`, which is kept, the result has the property `Q`. -/
def Yields (P : Words → Prop) (d : Draw α) (Q : α → Prop) : Prop :=
  ∀ words, P words → Q (d.run words).1 ∧ P (d.run words).2

theorem run_bind (d : Draw α) (next : α → Draw β) (words : Words) :
    (d >>= next).run words = (next (d.run words).1).run (d.run words).2 := rfl

namespace Yields

variable {Q R : α → Prop} {d : Draw α}

theorem pure {a : α} (h : Q a) : Yields P (pure a) Q := by
  intro words hwords
  exact ⟨h, hwords⟩

theorem bind {S : β → Prop} {next : α → Draw β} (hd : Yields P d Q)
    (hnext : ∀ a, Q a → Yields P (next a) S) : Yields P (d >>= next) S := by
  intro words hwords
  obtain ⟨hresult, hkept⟩ := hd words hwords
  rw [run_bind]
  exact hnext _ hresult _ hkept

theorem mono (hd : Yields P d Q) (h : ∀ a, Q a → R a) : Yields P d R := by
  intro words hwords
  obtain ⟨hresult, hkept⟩ := hd words hwords
  exact ⟨h _ hresult, hkept⟩

end Yields

/-! ### One draw after the other -/

/-- The source behind `n` draws of one kind. -/
def behind (d : Draw α) (words : Words) : (n : Nat) → Words
  | 0 => words
  | n + 1 => (d.run (behind d words n)).2

/-- The result of the draw that comes behind `n` others of its kind. -/
def nth (d : Draw α) (words : Words) (n : Nat) : α :=
  (d.run (d.behind words n)).1

/-- What one draw guarantees, each of a sequence of draws does. -/
theorem Yields.nth {Q : α → Prop} {d : Draw α} (hd : Yields P d Q) {words : Words}
    (hwords : P words) (n : Nat) : Q (d.nth words n) := by
  have hkept : P (d.behind words n) := by
    induction n with
    | zero => exact hwords
    | succ n ih => exact (hd _ ih).2
  exact (hd _ hkept).1

/-! ### Single choices -/

section Choices

variable (hP : Words.Lasting P)

include hP

theorem yields_word : Yields P word fun _ => True := by
  intro words hwords
  exact ⟨trivial, hP words hwords⟩

theorem yields_bits (size : Nat) : Yields P (bits size) fun _ => True :=
  (yields_word hP).bind fun _ _ => .pure trivial

theorem yields_coin : Yields P coin fun _ => True :=
  (yields_bits hP 32).bind fun _ _ => .pure trivial

theorem yields_chance (probability : Float) :
    Yields P (chance probability) fun happens =>
      happens = true → Possible (chance probability) := by
  have hkept : Yields P (chance probability) fun _ => True := by
    rw [chance]
    split
    · exact .pure trivial
    · exact (yields_word hP).bind fun _ _ => .pure trivial
  intro words hwords
  exact ⟨fun h => ⟨words, h⟩, (hkept words hwords).2⟩

theorem yields_below (size n : Nat) (hn : 0 < n) :
    Yields P (below size n hn) fun _ => True := by
  apply (yields_bits hP size).bind
  intro x _
  split
  · exact (yields_bits hP size).bind fun _ _ => .pure trivial
  · exact .pure trivial

theorem yields_index (n : Nat) (hn : 0 < n) : Yields P (index n hn) fun _ => True :=
  yields_below hP 32 n hn

/-- A choice from a list that has elements is one of them. -/
theorem yields_choose? {xs : List α} (hxs : xs ≠ []) :
    Yields P (choose? xs) fun found => ∃ x ∈ xs, found = some x := by
  rw [choose?, dif_pos (List.length_pos_iff.2 hxs)]
  apply (yields_index hP _ _).bind
  intro i _
  exact .pure ⟨xs[i], List.getElem_mem i.isLt, rfl⟩

end Choices

/-! ### Samples -/

/-- A sample without repetition stays one when it is extended by an index below `n + 1`, where
that index gives way to `n` if it was in the sample before. -/
theorem nodup_map_append_singleton {n : Nat} {picked : List (Fin n)} (h : picked.Nodup)
    (pick : Fin (n + 1)) :
    (picked.map (fun i => if i.castSucc = pick then Fin.last n else i.castSucc) ++
      [pick]).Nodup := by
  have hlast : ∀ i : Fin n, i.castSucc ≠ Fin.last n := fun i => Fin.castSucc_ne_last i
  rw [List.nodup_append]
  refine ⟨?_, List.nodup_singleton _, ?_⟩
  · apply h.map
    intro i j hij
    dsimp only at hij
    split at hij <;> split at hij
    · next hi hj => exact Fin.castSucc_injective n (hi.trans hj.symm)
    · exact absurd hij.symm (hlast j)
    · exact absurd hij (hlast i)
    · exact Fin.castSucc_injective n hij
  · intro i hi j hj
    obtain ⟨k, -, rfl⟩ := List.mem_map.1 hi
    obtain rfl := List.mem_singleton.1 hj
    split
    · next hk => rw [← hk]; exact (hlast k).symm
    · next hk => exact hk

section Samples

variable (hP : Words.Lasting P)

include hP

theorem yields_sparseSample (n k : Nat) (h : k ≤ n) :
    Yields P (sparseSample n k h) fun picked => picked.toList.Nodup := by
  induction k generalizing n with
  | zero =>
      rw [sparseSample]
      exact .pure List.nodup_nil
  | succ k ih =>
      obtain ⟨n, rfl⟩ : ∃ m, n = m + 1 := ⟨n - 1, by omega⟩
      rw [sparseSample]
      apply (ih n (Nat.le_of_succ_le_succ h)).bind
      intro picked hpicked
      apply (yields_index hP _ _).bind
      intro pick _
      apply Yields.pure
      rw [Vector.toList_push, Vector.toList_map]
      exact nodup_map_append_singleton hpicked pick

/-- Exchanging two places of an order neither drops nor doubles an index. -/
theorem yields_shuffleFirst (n k : Nat) (h : k ≤ n) :
    Yields P (shuffleFirst n k h) fun order => order.toList.Nodup := by
  induction k with
  | zero =>
      rw [shuffleFirst]
      apply Yields.pure
      rw [Vector.toList_ofFn]
      exact List.nodup_ofFn.2 Function.injective_id
  | succ k ih =>
      rw [shuffleFirst]
      apply (ih (Nat.le_of_succ_le h)).bind
      intro order horder
      apply (yields_index hP _ _).bind
      intro ahead _
      apply Yields.pure
      exact (Vector.swap_perm h (by omega)).toList.nodup_iff.2 horder

theorem yields_denseSample (n k : Nat) (h : k ≤ n) :
    Yields P (denseSample n k h) fun picked => picked.toList.Nodup := by
  apply (yields_shuffleFirst hP n k h).bind
  intro order horder
  apply Yields.pure
  rw [Vector.toList_cast, Vector.toList_take]
  exact horder.sublist (List.take_sublist _ _)

/-- The indices of a sample are different, in whichever way it is drawn. -/
theorem yields_sample (n k : Nat) (h : k ≤ n) :
    Yields P (sample n k h) fun picked => picked.toList.Nodup := by
  rw [sample]
  split
  · exact yields_sparseSample hP n k h
  · exact yields_denseSample hP n k h

end Samples

end Draw

end RecordRules
