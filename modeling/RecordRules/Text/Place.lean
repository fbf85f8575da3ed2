/-!
A place in a text, and the picture that points a reader to it.
-/

namespace RecordRules

def utf8Length (chars : List Char) : Nat :=
  chars.foldl (fun n c => n + c.utf8Size) 0

/-- A text, cut at the place of interest. -/
structure Place where
  before : List Char
  after : List Char
deriving DecidableEq

namespace Place

/-- The place in `text` that leaves the last characters, as many as `rest` has. -/
def ofRest (text rest : List Char) : Place :=
  let start := text.length - rest.length
  ⟨text.take start, text.drop start⟩

def text (p : Place) : List Char :=
  p.before ++ p.after

def offset (p : Place) : Nat :=
  utf8Length p.before

/-- The same text, cut before the character that the picture marks.  The end of a text is
marked through its last character. -/
def marked (p : Place) : Place :=
  match p.after with
  | [] => ofRest p.before (p.before.drop (p.before.length - 1))
  | _ => p

/-- The part of the line in front of the place. -/
def lineStart (p : Place) : List Char :=
  (p.before.reverse.takeWhile (· ≠ '\n')).reverse

/-- The line that holds the place, without its line feed. -/
def line (p : Place) : List Char :=
  p.lineStart ++ p.after.takeWhile (· ≠ '\n')

/-- Lines are counted from one. -/
def lineNumber (p : Place) : Nat :=
  1 + p.before.count '\n'

/-- The number of blanks in front of the mark.  In front of an ASCII character they are as
many as the characters of the line so far, in front of any other as many as the bytes; the
end of the text is one past its last character. -/
def column (p : Place) : Nat :=
  match p.after with
  | [] => p.marked.lineStart.length + 1
  | c :: _ => if c.utf8Size = 1 then p.lineStart.length else utf8Length p.lineStart

/-- The text, a mark under the place, and a note.  A text of several lines is shown by the
one line that holds the place, with its number. -/
def picture (p : Place) (note : String) : String :=
  if p.text.contains '\n' then
    let number := toString p.marked.lineNumber
    let gutter := String.ofList (List.replicate number.length ' ')
    let blanks := String.ofList (List.replicate p.column ' ')
    s!"parse error at line {number}, column {p.column + 1}\n{gutter} |\n"
      ++ s!"{number} | {String.ofList p.marked.line}\n{gutter} | {blanks}^\n{note}"
  else
    let blanks := String.ofList (List.replicate p.offset ' ')
    s!"{String.ofList p.text}\n{blanks}^\n{note}"

end Place

end RecordRules
