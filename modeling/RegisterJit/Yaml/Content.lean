import RegisterJit.Yaml.Source

/-!
# The content of scalars

A scalar is plain, stands between quotes, or is a block of lines below its indicator. Where a plain
or quoted scalar goes on over a line break, the break becomes a blank, or if lines are left empty
the breaks after the first remain. In blocks the lines are kept apart or folded in the same way.
-/

namespace RegisterJit.Yaml

open Advance

/-! ## Gaps -/

/-- What was read between two words of a scalar. -/
structure Gap where
  /-- The blanks, if there was no line break. -/
  blanks : Text := []
  /-- Whether there was a line break. -/
  isBroken : Bool := false
  /-- The first line break. -/
  first : Text := []
  /-- The other line breaks. -/
  more : Text := []

namespace Gap

/-- What a gap contributes to the scalar. -/
def text (g : Gap) : Text :=
  if !g.isBroken then g.blanks
  else if g.first = [0x0a] then if g.more.isEmpty then [0x20] else g.more
  else g.first ++ g.more

/-- A gap with a blank more. After a line break blanks have no meaning. -/
def addBlank (g : Gap) (c : Nat) : Gap :=
  if g.isBroken then g else { g with blanks := g.blanks ++ textOf [c] }

/-- A gap with a line break more. -/
def addBreak (g : Gap) (br : Text) : Gap :=
  if g.isBroken then { g with more := g.more ++ br }
  else { g with blanks := [], isBroken := true, first := br }

/-- Read a gap after what was read of it. A tab left of `limit` on a later line is an error of the
scalar that started at `start`. -/
def readFrom (start : Mark) (limit : Int) : (fuel : Nat) → Gap → Advance Gap
  | 0, g => return g
  | fuel + 1, g => do
    need 1
    let c ← next
    if isBlank c then
      if g.isBroken && ((← mark).column : Int) < limit && c = 0x09 then
        fault start "found a tab character that violates indentation"
      pass 1
      readFrom start limit fuel (g.addBlank c)
    else if isBreak c then
      let br ← readBreak
      readFrom start limit fuel (g.addBreak br)
    else return g

/-- Read the rest of a gap. -/
def read (start : Mark) (limit : Int) (g : Gap) : Advance Gap := do
  readFrom start limit (← get).bound g

end Gap

/-! ## Plain scalars -/

/-- Whether a plain scalar has a word that ends before a character with another one after it;
between brackets more characters end a word. -/
def endsWord (isFlow : Bool) (c d : Nat) : Bool :=
  isBlankOrEnd c || (c = 0x3a && isBlankOrEnd d) || (isFlow && isOneOf ",?[]\x7b\x7d" c)

/-- Read a word of a plain scalar after the characters in `done`, which stand in reverse order. -/
def plainWord (isFlow : Bool) : (fuel : Nat) → (done : List Nat) → Advance (List Nat)
  | 0, done => return done.reverse
  | fuel + 1, done => do
    let c ← next
    if endsWord isFlow c (← ahead 1) then return done.reverse
    pass 1
    need 2
    plainWord isFlow fuel (c :: done)

/-- Read the words of a plain scalar after a text and a gap. The scalar ends before a comment, a
document mark, an indicator, and in blocks before a line left of `indent`. The result tells whether
the gap at its end has a line break. -/
def plainWords (isFlow : Bool) (indent : Int) (start : Mark) :
    (fuel : Nat) → Text → Gap → Advance (Text × Bool)
  | 0, t, g => return (t, g.isBroken)
  | fuel + 1, t, g => do
    need 4
    if (← atDocumentMark) || (← next) = 0x23 then return (t, g.isBroken)
    let word ← plainWord isFlow (← get).bound []
    let (t, g) := if word.isEmpty then (t, g) else (t ++ g.text ++ textOf word, {})
    let c ← next
    if !(isBlank c || isBreak c) then return (t, g.isBroken)
    let g ← g.read start indent
    if !isFlow && ((← mark).column : Int) < indent then return (t, g.isBroken)
    plainWords isFlow indent start fuel t g

/-- Read a plain scalar. -/
def readPlain (isFlow : Bool) (indent : Int) : Advance (Text × Bool) := do
  plainWords isFlow indent (← mark) (← get).bound [] {}

/-! ## Quoted scalars -/

/-- The character that a letter after a backslash stands for. -/
def escaped? (c : Nat) : Option Nat :=
  match c with
  | 0x30 => some 0x00
  | 0x61 => some 0x07
  | 0x62 => some 0x08
  | 0x74 | 0x09 => some 0x09
  | 0x6e => some 0x0a
  | 0x76 => some 0x0b
  | 0x66 => some 0x0c
  | 0x72 => some 0x0d
  | 0x65 => some 0x1b
  | 0x20 => some 0x20
  | 0x22 => some 0x22
  | 0x27 => some 0x27
  | 0x2f => some 0x2f
  | 0x5c => some 0x5c
  | 0x4e => some 0x85
  | 0x5f => some 0xa0
  | 0x4c => some 0x2028
  | 0x50 => some 0x2029
  | _ => none

/-- The number of hexadecimal digits that a letter after a backslash announces. -/
def escapeLength? (c : Nat) : Option Nat :=
  match c with
  | 0x78 => some 2
  | 0x75 => some 4
  | 0x55 => some 8
  | _ => none

/-- The number that hexadecimal digits write, if all are. -/
def hexNumber? (cs : List Nat) : Option Nat :=
  cs.foldlM (fun n c => (hexDigit? c).map (n * 16 + ·)) 0

/-- Read an escape in a scalar that started at `start`. -/
def readEscape (start : Mark) : Advance Text := do
  let c ← ahead 1
  match escaped? c, escapeLength? c with
  | some v, _ =>
    pass 2
    return textOf [v]
  | none, none => fault start "found unknown escape character"
  | none, some n =>
    pass 2
    need n
    match hexNumber? (← (List.range n).mapM ahead) with
    | none => fault start "did not find expected hexdecimal number"
    | some v =>
      if (0xd800 ≤ v && v ≤ 0xdfff) || 0x10ffff < v then
        fault start "found invalid Unicode character escape code"
      pass n
      return textOf [v]

/-- The quote that ends a scalar. -/
def quoteOf (isSingle : Bool) : Nat := if isSingle then 0x27 else 0x22

/-- Read the characters of a quoted scalar up to a blank, a line break or the closing quote, after
the text in `done`, which stands in reverse order. The result tells whether a line break after a
backslash was read. -/
def quotedWord (isSingle : Bool) (start : Mark) :
    (fuel : Nat) → (done : Text) → Advance (Text × Bool)
  | 0, done => return (done.reverse, false)
  | fuel + 1, done => do
    let c ← next
    let d ← ahead 1
    if isBlankOrEnd c then return (done.reverse, false)
    else if isSingle && c = 0x27 && d = 0x27 then
      pass 2
      need 2
      quotedWord isSingle start fuel (0x27 :: done)
    else if c = quoteOf isSingle then return (done.reverse, false)
    else if !isSingle && c = 0x5c && isBreak d then
      need 3
      pass 1
      passBreak
      return (done.reverse, true)
    else if !isSingle && c = 0x5c then
      let bytes ← readEscape start
      need 2
      quotedWord isSingle start fuel (bytes.reverse ++ done)
    else
      pass 1
      need 2
      quotedWord isSingle start fuel ((textOf [c]).reverse ++ done)

/-- Read the words of a quoted scalar after a text, up to the closing quote. -/
def quotedWords (isSingle : Bool) (start : Mark) : (fuel : Nat) → Text → Advance Text
  | 0, t => return t
  | fuel + 1, t => do
    need 4
    if ← atDocumentMark then fault start "found unexpected document indicator"
    if (← next) = 0 then fault start "found unexpected end of stream"
    let (word, isBroken) ← quotedWord isSingle start (← get).bound []
    need 1
    if (← next) = quoteOf isSingle then
      pass 1
      return t ++ word
    let g ← Gap.read start 0 { isBroken := isBroken }
    quotedWords isSingle start fuel (t ++ word ++ g.text)

/-- Read a quoted scalar. -/
def readQuoted (isSingle : Bool) : Advance Text := do
  let start ← mark
  pass 1
  quotedWords isSingle start (← get).bound []

/-! ## Blocks -/

/-- What happens to the line breaks at the end of a block. -/
inductive Chomping
  | clip
  | strip
  | keep

/-- Read the sign that says what happens to the line breaks at the end. -/
def readChomping : Advance (Option Chomping) := do
  need 1
  let c ← next
  if c = 0x2b then
    pass 1
    return some .keep
  else if c = 0x2d then
    pass 1
    return some .strip
  else return none

/-- Read the digit that says how much a block is indented. -/
def readIncrement (start : Mark) : Advance Nat := do
  need 1
  let c ← next
  if isDigitChar c then
    if c = 0x30 then fault start "found an indentation indicator equal to 0"
    pass 1
    return c - 0x30
  else return 0

/-- Read what stands after the indicator of a block: the two in either order, and a comment. -/
def readBlockHead (start : Mark) : Advance (Chomping × Nat) := do
  let first ← readChomping
  let increment ← readIncrement start
  let second ← if first.isSome || increment = 0 then pure none else readChomping
  passWhile isBlank
  if (← next) = 0x23 then passComment
  let c ← next
  if !isBreakOrEnd c then fault start "did not find expected comment or line break"
  if isBreak c then passBreak
  return ((first <|> second).getD .clip, increment)

/-- Pass blanks of the indentation up to the column `indent`, or all if it is zero. -/
def passIndentation (indent : Nat) : (fuel : Nat) → Advance Unit
  | 0 => return ()
  | fuel + 1 => do
    need 1
    if (indent = 0 || (← mark).column < indent) && (← next) = 0x20 then
      pass 1
      passIndentation indent fuel

/-- Read the indentation and empty lines before a line of a block. An `indent` of zero is not known
yet. The result has the line breaks and the greatest indentation seen. -/
def blockBreaks (start : Mark) (indent : Nat) :
    (fuel : Nat) → (widest : Nat) → Text → Advance (Nat × Text)
  | 0, widest, t => return (widest, t)
  | fuel + 1, widest, t => do
    passIndentation indent (← get).bound
    let column := (← mark).column
    let widest := max widest column
    let c ← next
    if (indent = 0 || column < indent) && c = 0x09 then
      fault start "found a tab character where an indentation space is expected"
    if !isBreak c then return (widest, t)
    let br ← readBreak
    blockBreaks start indent fuel widest (t ++ br)

/-- The text of a block so far, with the breaks that are still undecided. -/
structure BlockText where
  text : Text := []
  /-- The break at the end of the last line. -/
  ending : Text := []
  /-- The breaks of empty lines since. -/
  empty : Text := []
  /-- Whether the last line started with a blank. -/
  isBlank : Bool := false

/-- Add a line to a block. Folding replaces a single break between lines that do not start with a
blank. -/
def BlockText.add (isLiteral : Bool) (b : BlockText) (line : List Nat) (ending : Text) :
    BlockText :=
  let blank := Yaml.isBlank (line.headD 0)
  let joint : Text :=
    if !isLiteral && !b.isBlank && !blank && b.ending = [0x0a] then
      if b.empty.isEmpty then [0x20] else []
    else b.ending
  ⟨b.text ++ joint ++ b.empty ++ textOf line, ending, [], blank⟩

/-- Read the lines of a block that are indented by `indent`. -/
def blockLines (isLiteral : Bool) (start : Mark) (indent : Nat) :
    (fuel : Nat) → BlockText → Advance BlockText
  | 0, b => return b
  | fuel + 1, b => do
    need 1
    if (← mark).column ≠ indent || (← next) = 0 then return b
    let line ← readWhile (!isBreakOrEnd ·)
    let ending ← readBreak
    let b := b.add isLiteral line ending
    let (_, empty) ← blockBreaks start indent (← get).bound 0 []
    blockLines isLiteral start indent fuel { b with empty := empty }

/-- Read a block scalar inside something indented by `outer`. -/
def readBlock (isLiteral : Bool) (outer : Int) : Advance Text := do
  let start ← mark
  pass 1
  let (chomping, increment) ← readBlockHead start
  let given := if increment = 0 then 0 else (max outer 0).toNat + increment
  let (widest, empty) ← blockBreaks start given (← get).bound 0 []
  let indent := if given = 0 then max (max widest (outer + 1).toNat) 1 else given
  let b ← blockLines isLiteral start indent (← get).bound { empty := empty }
  let tail := match chomping with
    | .strip => []
    | .clip => b.ending
    | .keep => b.ending ++ b.empty
  return b.text ++ tail

end RegisterJit.Yaml
