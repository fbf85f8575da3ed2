import RecordRules.Repository

/-!
Runs of a repository over many records.  The records are split among workers in contiguous
parts; how many rules hold in all does not depend on the split.
-/

namespace RecordRules

/-- Why a run cannot start. -/
inductive RunFault where
  | emptyInput
  | noThreads
deriving DecidableEq

def RunFault.message : RunFault → String
  | .emptyInput => "benchmark needs at least one input record"
  | .noThreads => "benchmark needs at least one thread"

/-- The counts of a run.  Times are in nanoseconds. -/
structure RunReport where
  records : Nat
  rules : Nat
  threads : Nat
  total : Nat
  average : Nat
  hits : Nat
deriving DecidableEq

namespace RunReport

def workload (report : RunReport) : String :=
  s!"{report.records} records x {report.rules} rules on {report.threads} thread(s)"

def tally (report : RunReport) : String :=
  s!"{report.hits} hits"

end RunReport

/-- A list in contiguous parts of `size` elements, of which the last may be shorter. -/
def chunks {α : Type} (size : Nat) (xs : List α) : List (List α) :=
  if 0 < size ∧ xs ≠ [] then
    xs.take size :: chunks size (xs.drop size)
  else
    []
termination_by xs.length
decreasing_by
  have : 0 < xs.length := List.length_pos_iff.2 (And.right ‹_›)
  grind

/-- The size of the parts in which `count` elements are shared among workers: as many as make
enough for all. -/
def partSize (count workers : Nat) : Nat :=
  (count + workers - 1) / workers

/-- A list in as many contiguous parts as there are workers, or fewer. -/
def share {α : Type} (workers : Nat) (xs : List α) : List (List α) :=
  chunks (partSize xs.length workers) xs

def addUp (ns : List Nat) : Nat :=
  ns.foldl (· + ·) 0

namespace Repository

/-- The number of pairs of a record and a rule that holds on it. -/
def countHits (r : Repository) (records : List Record) : Nat :=
  addUp (records.map fun record => (r.hits record).length)

/-- The report of a run that took `elapsed` nanoseconds.  The average time of a record is a number
of 64 bits, or the greatest of them. -/
def finish (r : Repository) (records : List Record) (threads elapsed hits : Nat) :
    RunReport where
  records := records.length
  rules := r.size
  threads := threads
  total := elapsed
  average := min (elapsed / records.length) (UInt64.size - 1)
  hits := hits

/-- Runs all records on one thread. -/
def run (r : Repository) (records : List Record) (elapsed : Nat) :
    Except RunFault RunReport :=
  if records.isEmpty then
    .error .emptyInput
  else
    .ok (r.finish records 1 elapsed (r.countHits records))

/-- Runs the records in as many contiguous parts as there are threads, or fewer. -/
def runSplit (r : Repository) (records : List Record) (threads elapsed : Nat) :
    Except RunFault RunReport :=
  if threads = 0 then
    .error .noThreads
  else if records.isEmpty then
    .error .emptyInput
  else
    .ok (r.finish records threads elapsed (addUp ((share threads records).map r.countHits)))

end Repository

end RecordRules
