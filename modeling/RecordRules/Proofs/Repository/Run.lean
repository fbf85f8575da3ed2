import Mathlib.Algebra.GroupWithZero.Nat
import RecordRules.Repository.Run
import RecordRules.Proofs.Repository.Passes

/-!
Runs over many records.  The records are shared in contiguous parts, one for each worker at most and
none of them empty, so a run on many threads counts what a run on one thread counts: the rules that
hold on each record, added up.
-/

namespace RecordRules

/-- The list in contiguous parts, one for each worker at most, and none of them empty. -/
structure Shares {α : Type} (xs : List α) (workers : Nat) (parts : List (List α)) : Prop where
  flatten_eq : parts.flatten = xs
  nil_not_mem : [] ∉ parts
  length_le : parts.length ≤ workers

/-! ### Parts of a list -/

section Parts

variable {α : Type} {size : Nat}

theorem flatten_chunks (hsize : 0 < size) (xs : List α) : (chunks size xs).flatten = xs := by
  fun_induction chunks size xs with
  | case1 xs h ih => rw [List.flatten_cons, ih, List.take_append_drop]
  | case2 xs h =>
      have hxs : xs = [] := by
        by_contra hne
        exact h ⟨hsize, hne⟩
      rw [hxs, List.flatten_nil]

theorem nil_not_mem_chunks (size : Nat) (xs : List α) : [] ∉ chunks size xs := by
  fun_induction chunks size xs with
  | case1 xs h ih =>
      rw [List.mem_cons, not_or]
      refine ⟨?_, ih⟩
      intro htake
      rcases List.take_eq_nil_iff.1 htake.symm with hsize | hxs
      · exact h.1.ne hsize.symm
      · exact h.2 hxs
  | case2 xs h => exact List.not_mem_nil

/-- A list that fits into so many parts is not divided into more of them. -/
theorem length_chunks_le {xs : List α} {count : Nat} (h : xs.length ≤ count * size) :
    (chunks size xs).length ≤ count := by
  fun_induction chunks size xs generalizing count with
  | case1 xs hxs ih =>
      have hpos : 0 < xs.length := List.length_pos_iff.2 hxs.2
      cases count with
      | zero => omega
      | succ count =>
          rw [Nat.succ_mul] at h
          rw [List.length_cons]
          apply Nat.succ_le_succ
          apply ih
          rw [List.length_drop]
          omega
  | case2 xs hxs => exact Nat.zero_le count

/-- With one part of this size for each worker, there is room for all elements. -/
theorem le_mul_partSize (count : Nat) {workers : Nat} (h : 0 < workers) :
    count ≤ workers * partSize count workers := by
  have hlt : count + workers - 1 < workers * ((count + workers - 1) / workers + 1) :=
    Nat.lt_mul_div_succ _ h
  rw [Nat.mul_succ] at hlt
  rw [partSize]
  omega

theorem partSize_pos {count workers : Nat} (hcount : 0 < count) (h : 0 < workers) :
    0 < partSize count workers := by
  apply Nat.div_pos _ h
  omega

theorem shares_share {xs : List α} {workers : Nat} (hxs : xs ≠ []) (h : 0 < workers) :
    Shares xs workers (share workers xs) where
  flatten_eq := flatten_chunks (partSize_pos (List.length_pos_iff.2 hxs) h) xs
  nil_not_mem := nil_not_mem_chunks _ xs
  length_le := length_chunks_le (le_mul_partSize xs.length h)

end Parts

/-! ### Counts -/

theorem addUp_eq_sum (ns : List Nat) : addUp ns = ns.sum :=
  List.sum_eq_foldl.symm

/-- A report that counts right, for these records on so many threads: its hits are those of each
record, added up, in whatever orders the rules are visited for one record and the next. -/
structure RunReport.Counts (report : RunReport) (r : Repository) (records : List Record)
    (threads : Nat) : Prop where
  records_eq : report.records = records.length
  rules_eq : report.rules = r.size
  threads_eq : report.threads = threads
  hits_eq : report.hits = (records.map fun record => (r.hits record).length).sum
  hits_eq_in : ∀ orders : Nat → VisitOrder, report.hits =
    (records.mapIdx fun i record => (r.hitsIn (orders i) record).length).sum

namespace Repository

theorem length_hitsIn (o : VisitOrder) (r : Repository) (record : Record) :
    (r.hitsIn o record).length = (r.hits record).length := by
  rw [← hitsIn_listed]
  exact (r.perm_hitsIn o .listed record).length_eq

section Counts

variable (r : Repository)

theorem countHits_eq_sum (records : List Record) :
    r.countHits records = (records.map fun record => (r.hits record).length).sum :=
  addUp_eq_sum _

theorem countHits_append (records more : List Record) :
    r.countHits (records ++ more) = r.countHits records + r.countHits more := by
  simp only [countHits_eq_sum, List.map_append, List.sum_append]

/-- What the workers count in their parts adds up to what one counts in all of them. -/
theorem addUp_map_countHits (parts : List (List Record)) :
    addUp (parts.map r.countHits) = r.countHits parts.flatten := by
  rw [addUp_eq_sum]
  induction parts with
  | nil => rfl
  | cons part parts ih =>
      rw [List.map_cons, List.sum_cons, ih, List.flatten_cons, countHits_append]

theorem countHits_eq_sum_hitsIn (orders : Nat → VisitOrder) (records : List Record) :
    r.countHits records =
      (records.mapIdx fun i record => (r.hitsIn (orders i) record).length).sum := by
  rw [countHits_eq_sum]
  induction records generalizing orders with
  | nil => rfl
  | cons record records ih =>
      rw [List.map_cons, List.sum_cons, List.mapIdx_cons, List.sum_cons, length_hitsIn,
        ih fun i => orders (i + 1)]

theorem counts_finish (records : List Record) (threads elapsed : Nat) :
    (r.finish records threads elapsed (r.countHits records)).Counts r records threads where
  records_eq := rfl
  rules_eq := rfl
  threads_eq := rfl
  hits_eq := r.countHits_eq_sum records
  hits_eq_in orders := r.countHits_eq_sum_hitsIn orders records

theorem run_eq_ok {records : List Record} (h : records ≠ []) (elapsed : Nat) :
    r.run records elapsed = .ok (r.finish records 1 elapsed (r.countHits records)) := by
  rw [run, if_neg (by simpa using h)]

theorem runSplit_eq_ok {records : List Record} (h : records ≠ []) {threads : Nat}
    (hthreads : 0 < threads) (elapsed : Nat) : r.runSplit records threads elapsed =
      .ok (r.finish records threads elapsed (r.countHits records)) := by
  rw [runSplit, if_neg hthreads.ne', if_neg (by simpa using h), addUp_map_countHits,
    (shares_share h hthreads).flatten_eq]

theorem run_eq_error_iff (records : List Record) (elapsed : Nat) (fault : RunFault) :
    r.run records elapsed = .error fault ↔ records = [] ∧ fault = .emptyInput := by
  by_cases h : records = []
  · simp [run, h, eq_comm]
  · simp [r.run_eq_ok h, h]

theorem runSplit_eq_error_iff (records : List Record) (threads elapsed : Nat) (fault : RunFault) :
    r.runSplit records threads elapsed = .error fault ↔
      threads = 0 ∧ fault = .noThreads ∨ 0 < threads ∧ records = [] ∧ fault = .emptyInput := by
  rcases Nat.eq_zero_or_pos threads with rfl | hthreads
  · simp [runSplit, eq_comm]
  · by_cases h : records = []
    · simp [runSplit, h, hthreads, hthreads.ne', eq_comm]
    · simp [r.runSplit_eq_ok h hthreads, h, hthreads.ne']

end Counts

/-- A run on many threads counts what a run on one thread counts.  It is refused for the lack of
threads first, then for the lack of records, and in no other case.  Otherwise the records are not
zero in number, nor is the size of the parts.  The threads share the records in contiguous parts,
and both runs report all records, all rules and the same hits, those of each record added up. -/
theorem runSplit_counts (r : Repository) (records : List Record) (threads elapsed elapsed' : Nat) :
    (∀ fault, r.runSplit records threads elapsed = .error fault ↔
      threads = 0 ∧ fault = .noThreads ∨ 0 < threads ∧ records = [] ∧ fault = .emptyInput) ∧
    (∀ fault, r.run records elapsed' = .error fault ↔ records = [] ∧ fault = .emptyInput) ∧
    (0 < threads → records ≠ [] →
      0 < records.length ∧ 0 < partSize records.length threads ∧
      Shares records threads (share threads records) ∧
      ∃ split whole, r.runSplit records threads elapsed = .ok split ∧
        r.run records elapsed' = .ok whole ∧ split.Counts r records threads ∧
          whole.Counts r records 1 ∧ split.hits = whole.hits) := by
  refine ⟨r.runSplit_eq_error_iff records threads elapsed, r.run_eq_error_iff records elapsed', ?_⟩
  intro hthreads h
  have hpos : 0 < records.length := List.length_pos_iff.2 h
  exact ⟨hpos, partSize_pos hpos hthreads, shares_share h hthreads, _, _,
    r.runSplit_eq_ok h hthreads elapsed, r.run_eq_ok h elapsed',
    r.counts_finish records threads elapsed, r.counts_finish records 1 elapsed', rfl⟩

/-- Far more threads than records: of 64 threads three get a record each, and find what one
finds. -/
theorem runSplit_counts_idle_threads :
    let rule : Rule := ⟨"vip", "is_vip", .ofExpr (.flag "is_vip")⟩
    let r : Repository := ⟨.untyped, .phased ⟨Std.HashMap.ofList [("vip", 0)], #[rule]⟩⟩
    let records := [true, false, true].map fun b => Record.ofList [("is_vip", .bool b)]
    Shares records 64 (share 64 records) ∧ (share 64 records).map List.length = [1, 1, 1] ∧
      ∃ split whole, r.runSplit records 64 0 = .ok split ∧ r.run records 0 = .ok whole ∧
        split.hits = whole.hits ∧ split.rules = 1 ∧ split.hits = 2 := by
  intro rule r records
  obtain ⟨-, -, hruns⟩ := runSplit_counts r records 64 0 0
  obtain ⟨-, -, hshares, split, whole, hsplit, hwhole, hcounts, -, hhits⟩ :=
    hruns (by decide) (by decide)
  refine ⟨hshares, by decide +kernel, split, whole, hsplit, hwhole, hhits, ?_, ?_⟩
  · exact hcounts.rules_eq.trans (by decide +kernel)
  · exact hcounts.hits_eq.trans (by decide +kernel)

end Repository

end RecordRules
