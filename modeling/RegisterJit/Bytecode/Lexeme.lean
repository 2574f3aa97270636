import RegisterJit.Text.Blank
import RegisterJit.Text.Quote

/-!
# Lines and operands of program texts

A program text is read line by line. A comment starts at a semicolon or hash outside quotes;
operands are separated by commas outside quotes. Inside quotes a backslash protects the byte after
it.

The parser sees lines only through these functions. `Proofs.Lexemes` shows that what a listing
prints is split as it was printed, `Proofs.Scanners` that going along a line by index does the same
and when a line ends inside quotes.
-/

namespace RegisterJit.Listing

/-- The bytes before the comment, given whether the line so far ends inside quotes. -/
def beforeComment : (quoted : Bool) → Text → Text
  | _, [] => []
  | quoted, b :: rest =>
    if b == Text.backslash && quoted then
      match rest with
      | [] => [b]
      | c :: rest => b :: c :: beforeComment quoted rest
    else if b == Text.quoteMark then b :: beforeComment (!quoted) rest
    else if (b == 0x3b || b == 0x23) && !quoted then []
    else b :: beforeComment quoted rest

/-- A line without its comment and without white space at its ends. -/
def stripComment (line : Text) : Text := Text.trim (beforeComment false line)

/-- Put bytes in front of the first piece. -/
def extendFirst (bytes : Text) : List Text → List Text
  | [] => [bytes]
  | piece :: more => (bytes ++ piece) :: more

/-- The raw pieces between the commas outside quotes, and whether the text ends inside quotes; it
starts inside them if `quoted`. -/
def pieces : (quoted : Bool) → Text → List Text × Bool
  | quoted, [] => ([[]], quoted)
  | quoted, b :: rest =>
    if b == Text.backslash && quoted then
      match rest with
      | [] => ([[b]], quoted)
      | c :: rest =>
        let (more, ends) := pieces quoted rest
        (extendFirst [b, c] more, ends)
    else if b == Text.quoteMark then
      let (more, ends) := pieces (!quoted) rest
      (extendFirst [b] more, ends)
    else if b == 0x2c && !quoted then
      let (more, ends) := pieces quoted rest
      ([] :: more, ends)
    else
      let (more, ends) := pieces quoted rest
      (extendFirst [b] more, ends)

/-- The operands of a line, trimmed; `none` when a quote is not closed. A blank text has no
operands. -/
def splitOperands (t : Text) : Option (List Text) :=
  let (raw, open_) := pieces false t
  if open_ then none
  else
    let trimmed := raw.map Text.trim
    if trimmed = [[]] then some [] else some trimmed

/-- A line that holds more than a comment, with its number from one on. -/
structure Line where
  number : Nat
  text : Text

/-- The lines of a program text that hold more than a comment. -/
def significantLines (source : Text) : List Line :=
  (Text.lines source).zipIdx.filterMap fun (raw, i) =>
    let text := stripComment raw
    if text.isEmpty then none else some ⟨i + 1, text⟩

end RegisterJit.Listing
