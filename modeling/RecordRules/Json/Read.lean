import RecordRules.Json.Lexeme
import RecordRules.Text.Reader

/-!
Reading JSON text.  The grammar is the strict one: nothing but blanks may surround a document,
and no comma stands in front of a closing bracket.
-/

namespace RecordRules

namespace Json

/-- A comma, with the blanks in front of it. -/
def comma : Separator where
  after? text := Lexeme.after? [','] (skipBlank text)
  shorter {text rest} h := by
    have hblank := (List.dropWhile_sublist isBlank (l := text)).length_le
    have := Lexeme.length_of_after? h
    simp only [skipBlank, List.length_singleton] at *
    omega

/-- Reads things with commas between them up to a closing bracket.  There may be none. -/
def readUpTo {α : Type} (closing : Char) (r : Reader Unit α) (text : List Char) :
    Except Unit (List α × List Char) :=
  match Lexeme.after? [closing] (skipBlank text) with
  | some rest => .ok ([], rest)
  | none =>
      match (r.separated comma).read text with
      | .error e => .error e
      | .ok ((first, others), rest) =>
          match Lexeme.after? [closing] (skipBlank rest) with
          | some rest => .ok (first :: others, rest)
          | none => .error ()

/-- Reads a name, a colon and a value. -/
def readMember (value : Reader Unit Json) (text : List Char) :
    Except Unit ((List StringUnit × Json) × List Char) :=
  match readString? text with
  | none => .error ()
  | some (name, rest) =>
      match Lexeme.after? [':'] (skipBlank rest) with
      | none => .error ()
      | some rest =>
          match value.read rest with
          | .error e => .error e
          | .ok (found, rest) => .ok ((name, found), rest)

/-- Reads one of the three words or a number. -/
def readAtom (text : List Char) : Except Unit (Json × List Char) :=
  match Lexeme.after? ['n', 'u', 'l', 'l'] text with
  | some rest => .ok (.null, rest)
  | none =>
      match Lexeme.after? ['t', 'r', 'u', 'e'] text with
      | some rest => .ok (.bool true, rest)
      | none =>
          match Lexeme.after? ['f', 'a', 'l', 's', 'e'] text with
          | some rest => .ok (.bool false, rest)
          | none =>
              match readNumeral? text with
              | some (n, rest) => .ok (.number n, rest)
              | none => .error ()

theorem length_of_readUpTo {α : Type} {closing : Char} {r : Reader Unit α}
    {text rest : List Char} {found : List α}
    (h : readUpTo closing r text = .ok (found, rest)) : rest.length < text.length := by
  have hblank := length_skipBlank_le text
  unfold readUpTo at h
  split at h
  · next hclosing =>
      cases h
      have := Lexeme.length_of_after? hclosing
      simp only [List.length_singleton] at this
      omega
  · split at h
    · cases h
    · next behind hread =>
        have := (r.separated comma).shorter hread
        have hblank := length_skipBlank_le behind
        split at h
        · next hclosing =>
            cases h
            have := Lexeme.length_of_after? hclosing
            omega
        · cases h

theorem length_of_readMember {value : Reader Unit Json} {text rest : List Char}
    {found : List StringUnit × Json}
    (h : readMember value text = .ok (found, rest)) : rest.length < text.length := by
  unfold readMember at h
  split at h
  · cases h
  · next behind hname =>
      have := length_of_readString? hname
      have hblank := length_skipBlank_le behind
      split at h
      · cases h
      · next hcolon =>
          have := Lexeme.length_of_after? hcolon
          split at h
          · cases h
          · next hvalue =>
              cases h
              have := value.shorter hvalue
              omega

theorem length_of_readAtom {text rest : List Char} {found : Json}
    (h : readAtom text = .ok (found, rest)) : rest.length < text.length := by
  unfold readAtom at h
  split at h
  · next hword => cases h; simp [Lexeme.after?_eq_some_iff.1 hword]; omega
  · split at h
    · next hword => cases h; simp [Lexeme.after?_eq_some_iff.1 hword]; omega
    · split at h
      · next hword => cases h; simp [Lexeme.after?_eq_some_iff.1 hword]; omega
      · split at h
        · next hnumber => cases h; exact length_of_readNumeral? hnumber
        · cases h

/-- The reader of members whose values this reader reads. -/
def member (value : Reader Unit Json) : Reader Unit (List StringUnit × Json) :=
  ⟨readMember value, length_of_readMember⟩

/-- Reads a document whose parts `deeper` reads. -/
def readOver (deeper : Reader Unit Json) (text : List Char) : Except Unit (Json × List Char) :=
  match skipBlank text with
  | '"' :: rest =>
      match readUnits? [] rest with
      | some (units, rest) => .ok (.string units, rest)
      | none => .error ()
  | '[' :: rest =>
      match readUpTo ']' deeper rest with
      | .ok (items, rest) => .ok (.array items, rest)
      | .error e => .error e
  | '\x7b' :: rest =>
      match readUpTo '\x7d' (member deeper) rest with
      | .ok (members, rest) => .ok (.object members, rest)
      | .error e => .error e
  | text => readAtom text

theorem length_of_readOver {deeper : Reader Unit Json} {text rest : List Char} {found : Json}
    (h : readOver deeper text = .ok (found, rest)) : rest.length < text.length := by
  have hblank := length_skipBlank_le text
  unfold readOver at h
  split at h
  · next htext =>
      simp only [htext, List.length_cons] at hblank
      split at h
      · next hunits =>
          cases h
          have := length_of_readUnits? hunits
          omega
      · cases h
  · next htext =>
      simp only [htext, List.length_cons] at hblank
      split at h
      · next hitems =>
          cases h
          have := length_of_readUpTo hitems
          omega
      · cases h
  · next htext =>
      simp only [htext, List.length_cons] at hblank
      split at h
      · next hmembers =>
          cases h
          have := length_of_readUpTo hmembers
          omega
      · cases h
  · have := length_of_readAtom h
    omega

/-- The reader of documents that are nested in at most so many levels. -/
def value : (levels : Nat) → Reader Unit Json
  | 0 => .fail ()
  | levels + 1 => ⟨readOver (value levels), length_of_readOver⟩

/-- The document of a text, which may stand between blanks.  Each level of nesting takes a
character, so the levels suffice. -/
def read? (text : String) : Option Json :=
  match (value text.toList.length).read text.toList with
  | .error _ => none
  | .ok (found, rest) => if (skipBlank rest).isEmpty then some found else none

end Json

end RecordRules
