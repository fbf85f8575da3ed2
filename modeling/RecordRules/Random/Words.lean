/-!
Sources of random words: a sequence of 64-bit words and the number of those already taken.
-/

namespace RecordRules

/-- A sequence of words, of which the first `used` are taken. -/
structure Words where
  word : Nat → UInt64
  used : Nat

namespace Words

/-- The finalizer of SplitMix64. -/
def mix (state : UInt64) : UInt64 :=
  let z := (state ^^^ (state >>> 30)) * 0xBF58476D1CE4E5B9
  let z := (z ^^^ (z >>> 27)) * 0x94D049BB133111EB
  z ^^^ (z >>> 31)

/-- The words of SplitMix64 from a seed.  The state grows by a constant with each word, so
any word is found without those before it. -/
def splitMix (seed : UInt64) (k : Nat) : UInt64 :=
  mix (seed + (k + 1).toUInt64 * 0x9E3779B97F4A7C15)

/-- The listed words, and behind them those of SplitMix64 from a seed. -/
def ofListed (listed : Array UInt64) (seed : UInt64) : Words where
  word k := if h : k < listed.size then listed[k] else splitMix seed (k - listed.size)
  used := 0

end Words

/-- A computation that takes random words. -/
abbrev Draw := StateM Words

namespace Draw

def word : Draw UInt64 := fun words =>
  (words.word words.used, { words with used := words.used + 1 })

end Draw

end RecordRules
