/-!
Readers over lists of characters.  A reader takes at least one character of the text, so a
loop over readers ends.
-/

namespace RecordRules

/-- A way to read a thing at the start of a text, or to fail for a reason. -/
structure Reader (ε α : Type) where
  read : List Char → Except ε (α × List Char)
  shorter : ∀ {text a rest}, read text = .ok (a, rest) → rest.length < text.length

/-- What stands between two things of a chain, and takes at least one character. -/
structure Separator where
  after? : List Char → Option (List Char)
  shorter : ∀ {text rest}, after? text = some rest → rest.length < text.length

namespace Reader

variable {ε α β : Type}

def fail (reason : ε) : Reader ε α where
  read _ := .error reason
  shorter h := by cases h

def map (f : α → β) (r : Reader ε α) : Reader ε β where
  read text :=
    match r.read text with
    | .error reason => .error reason
    | .ok (a, rest) => .ok (f a, rest)
  shorter {text b rest} h := by
    split at h
    · cases h
    · next hread =>
        cases h
        exact r.shorter hread

/-- Reads further things, each behind a separator, after those in `found`, last first.  A
separator must be followed by a thing; the text is left where no separator follows. -/
def more (r : Reader ε α) (s : Separator) (found : List α) (text : List Char) :
    Except ε (List α × List Char) :=
  match _ : s.after? text with
  | none => .ok (found.reverse, text)
  | some behind =>
      match _ : r.read behind with
      | .error reason => .error reason
      | .ok (a, rest) => r.more s (a :: found) rest
termination_by text.length
decreasing_by
  have hbehind := s.shorter ‹s.after? _ = some _›
  have hrest := r.shorter ‹r.read _ = .ok _›
  omega

theorem length_of_more {r : Reader ε α} {s : Separator} {found all : List α}
    {text rest : List Char} (h : r.more s found text = .ok (all, rest)) :
    rest.length ≤ text.length := by
  fun_induction r.more s found text with
  | case1 => cases h; exact Nat.le_refl _
  | case2 => cases h
  | case3 found text behind hsep a rest' hread ih =>
      have hbehind := s.shorter hsep
      have hrest := r.shorter hread
      have := ih h
      omega

/-- Reads one thing or several with separators between them. -/
def separated (r : Reader ε α) (s : Separator) : Reader ε (α × List α) where
  read text :=
    match r.read text with
    | .error reason => .error reason
    | .ok (first, rest) =>
        match r.more s [] rest with
        | .error reason => .error reason
        | .ok (others, rest) => .ok ((first, others), rest)
  shorter {text a rest} h := by
    split at h
    · cases h
    · next first behind hfirst =>
        split at h
        · cases h
        · next others rest' hothers =>
            cases h
            exact Nat.lt_of_le_of_lt (length_of_more hothers) (r.shorter hfirst)

end Reader

end RecordRules
