import RecordRules.Random.Draw

/-!
Samples without repetition: `k` different indices below `n`, in the order in which they were
picked.  They are drawn index by index, or from the head of a shuffled order.  A third way, which is
to draw every index again until it is a new one, takes an unbounded number of words and is not
offered.
-/

namespace RecordRules

namespace Draw

/-- A sample by one draw for each index.  The sample below `n` is extended by a draw below
`n + 1`; where that was picked before, `n` takes its place. -/
def sparseSample : (n k : Nat) → k ≤ n → Draw (Vector (Fin n) k)
  | _, 0, _ => return #v[]
  | n + 1, k + 1, h => do
      let picked ← sparseSample n k (Nat.le_of_succ_le_succ h)
      let pick ← index (n + 1) n.succ_pos
      let moved := picked.map fun i => if i.castSucc = pick then Fin.last n else i.castSucc
      return moved.push pick

/-- All indices in order, of which the first `k` are exchanged, one after the other, with one
that stands at the same place or later. -/
def shuffleFirst (n : Nat) : (k : Nat) → k ≤ n → Draw (Vector (Fin n) n)
  | 0, _ => return Vector.ofFn id
  | k + 1, h => do
      let order ← shuffleFirst n k (Nat.le_of_succ_le h)
      let ahead ← index (n - k) (Nat.sub_pos_of_lt h)
      return order.swap k (k + ahead) h (by omega)

/-- A sample from the head of a shuffled order. -/
def denseSample (n k : Nat) (h : k ≤ n) : Draw (Vector (Fin n) k) := do
  let order ← shuffleFirst n k h
  return (order.take k).cast (Nat.min_eq_left h)

/-- Whether a sample is small enough, in itself or beside `n`, to be drawn index by index.  One of
163 indices or more never is, however long the range. -/
def isSparse (n k : Nat) : Bool :=
  k < 12 || k < 163 && 100 * k + 16 * k * k ≤ 10 * n

/-- A sample of `k` indices below `n`.  For 163 indices or more from a range 270 times as long (37
times, if it has 500,000 indices or more) the usual way is to draw repetitions again.  Here such a
sample is drawn from a shuffled order, like every other large one: its indices are different, but
they come from other words. -/
def sample (n k : Nat) (h : k ≤ n) : Draw (Vector (Fin n) k) :=
  if isSparse n k then sparseSample n k h else denseSample n k h

end Draw

end RecordRules
