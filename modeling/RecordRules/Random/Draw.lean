import RecordRules.Random.Words

/-!
Random choices, each made from a fixed number of words or one more.  A choice among `n` things
is an index below `n` by its type, for every sequence of words.
-/

namespace RecordRules

namespace Draw

def bits (size : Nat) : Draw (Fin (Nat.pow 2 size)) := do
  let word ← Draw.word
  return ⟨word.toNat % Nat.pow 2 size, Nat.mod_lt _ (Nat.two_pow_pos size)⟩

/-- A fair coin: the top bit of 32. -/
def coin : Draw Bool := do
  let x ← bits 32
  return Nat.pow 2 31 ≤ x.val

/-- An event of this probability: a word below the probability scaled to the range of words.
A sure event takes no word. -/
def chance (probability : Float) : Draw Bool :=
  if probability == 1.0 then
    return true
  else do
    let word ← Draw.word
    return word < (probability * 18446744073709551616.0).toUInt64

theorem scaled_lt {size n carry : Nat} (x : Fin (Nat.pow 2 size)) (hcarry : carry < n) :
    (x * n + carry) / Nat.pow 2 size < n := by
  have hpos : 0 < Nat.pow 2 size := Nat.two_pow_pos size
  rw [Nat.div_lt_iff_lt_mul hpos]
  calc
    x * n + carry < x * n + n := by omega
    _ = (x + 1) * n := by rw [Nat.add_mul, Nat.one_mul]
    _ ≤ Nat.pow 2 size * n := Nat.mul_le_mul_right n x.isLt
    _ = n * Nat.pow 2 size := Nat.mul_comm _ _

/-- An index below `n` from words of `size` bits.  The word is taken as a fraction of its
range and scaled to `n`; where the part cut off is so large that further digits of the
fraction could carry, a second word supplies them. -/
def below (size n : Nat) (hn : 0 < n) : Draw (Fin n) := do
  let x ← bits size
  if Nat.pow 2 size < x * n % Nat.pow 2 size + n then
    let y ← bits size
    return ⟨(x * n + y * n / Nat.pow 2 size) / Nat.pow 2 size, scaled_lt x (scaled_lt y hn)⟩
  else
    return ⟨x * n / Nat.pow 2 size, scaled_lt x hn⟩

/-- An index below `n`, for numbers of things that can be held in memory. -/
def index (n : Nat) (hn : 0 < n) : Draw (Fin n) :=
  below 32 n hn

def choose? {α : Type} (xs : List α) : Draw (Option α) :=
  if h : 0 < xs.length then do
    let i ← index xs.length h
    return some xs[i]
  else
    return none

end Draw

end RecordRules
