import RegisterJit.Yaml.Supply

/-!
# Reading characters

A source is what is left of a document, with the place that was reached. Reading asks for as many
characters as it has to look at; what lies further ahead stays in the supply.
-/

namespace RegisterJit.Yaml

/-- A place in a document, everything counted from zero. -/
structure Mark where
  index : Nat
  line : Nat
  column : Nat

/-- Why a text is no document: the line to be named, if any, and what the problem is. -/
structure Malformed where
  line? : Option Nat
  problem : Text

namespace Malformed

/-- The wording of a problem. -/
def message (m : Malformed) : Text :=
  let place := match m.line? with
    | some n => Text.ofString "line " ++ Text.ofNat n ++ Text.ofString ": "
    | none => []
  Text.ofString "yaml: " ++ place ++ m.problem

/-- A problem without a line. -/
def ofProblem (problem : Text) : Malformed := ⟨none, problem⟩

/-- The first of two lines that is not the first of the document; `shift` is added to it. -/
def pickLine (shift : Nat) (context problem : Mark) : Option Nat :=
  if context.line ≠ 0 then some (context.line + shift)
  else if problem.line ≠ 0 then some (problem.line + shift)
  else none

end Malformed

/-! ## Classes of characters

The end of a document counts as the character with the number zero, which never stands in one. -/

/-- Whether a character is a blank or a tab. -/
def isBlank (c : Nat) : Bool := c = 0x20 || c = 0x09

/-- Whether a character breaks lines. -/
def isBreak (c : Nat) : Bool := c = 0x0a || c = 0x0d || c = 0x85 || c = 0x2028 || c = 0x2029

/-- Whether a character breaks lines, or the document ends. -/
def isBreakOrEnd (c : Nat) : Bool := c = 0 || isBreak c

/-- Whether a character parts words, or the document ends. -/
def isBlankOrEnd (c : Nat) : Bool := isBlank c || isBreakOrEnd c

/-- Whether a character may stand in names. -/
def isWordChar (c : Nat) : Bool :=
  (0x30 ≤ c && c ≤ 0x39) || (0x41 ≤ c && c ≤ 0x5a) || (0x61 ≤ c && c ≤ 0x7a) || c = 0x5f || c = 0x2d

/-- Whether a character is a decimal digit. -/
def isDigitChar (c : Nat) : Bool := 0x30 ≤ c && c ≤ 0x39

/-- The value of a hexadecimal digit. -/
def hexDigit? (c : Nat) : Option Nat := if c < 0x80 then Text.hexValue? c.toUInt8 else none

/-- Characters as text. -/
def textOf (cs : List Nat) : Text := cs.flatMap Text.encodeChar

/-- Whether a character is one of some. -/
def isOneOf (cs : String) (c : Nat) : Bool := cs.toList.any fun d => d.toNat = c

/-! ## Sources -/

/-- The byte order mark as a character. -/
def orderMark : Nat := 0xfeff

/-- What is left of a document, and where. -/
structure Source where
  /-- The characters at hand. -/
  rest : List Nat
  /-- The characters to come. -/
  supply : Supply
  /-- The character that was next when more were last asked for. -/
  front : Nat
  mark : Mark
  /-- The line breaks since the last character that is not blank. -/
  breaks : Nat
  /-- The number of characters of the document. -/
  size : Nat

namespace Source

/-- All characters of a document. -/
def ofText (t : Text) : Source :=
  let supply := Supply.ofText t
  ⟨[], supply, 0, ⟨0, 0, 0⟩, 0, supply.size⟩

/-- A bound on the steps of a loop that reads a character in each. -/
def bound (s : Source) : Nat := s.size + 2

/-- Whether a list has at least `n` members. -/
def hasAtLeast (n : Nat) (cs : List Nat) : Bool := n = 0 || !(cs.drop (n - 1)).isEmpty

/-- Take portions until at least `n` characters are at hand. After the last one a zero is added. -/
def gather (n : Nat) (problem? : Option Text) :
    List Nat → List (List Nat) → Except Malformed (List Nat × List (List Nat))
  | rest, [] =>
    if hasAtLeast n rest then .ok (rest, [])
    else
      match problem? with
      | some p => .error (.ofProblem p)
      | none => .ok (rest ++ [0], [])
  | rest, p :: portions =>
    if hasAtLeast n rest then .ok (rest, p :: portions) else gather n problem? (rest ++ p) portions

/-- Have at least `n` characters at hand, unless the document ends before. -/
def filled (n : Nat) (s : Source) : Except Malformed Source :=
  if hasAtLeast n s.rest then .ok s
  else do
    let (rest, portions) ← gather n s.supply.problem? s.rest s.supply.portions
    return { s with
      rest := rest
      supply := { s.supply with portions := portions }
      front := rest.headD 0 }

/-- Pass `n` characters of a line. -/
def passed (s : Source) (n : Nat) : Source :=
  { s with
    rest := s.rest.drop n
    mark := ⟨s.mark.index + n, s.mark.line, s.mark.column + n⟩
    breaks := if (s.rest.take n).all isBlank then s.breaks else 0 }

/-- Pass a line break of `n` characters. -/
def passedBreak (s : Source) (n : Nat) : Source :=
  { s with
    rest := s.rest.drop n
    mark := ⟨s.mark.index + n, s.mark.line + 1, 0⟩
    breaks := s.breaks + 1 }

end Source

/-! ## Steps -/

/-- A step of reading characters. -/
abbrev Advance := StateT Source (Except Malformed)

namespace Advance

/-- Have at least `n` characters at hand. -/
def need (n : Nat) : Advance Unit := do
  set (← (← get).filled n)

/-- The character `k` places ahead, among those at hand. -/
def ahead (k : Nat) : Advance Nat := return (← get).rest.getD k 0

/-- The next character, among those at hand. -/
def next : Advance Nat := ahead 0

/-- The place that was reached. -/
def mark : Advance Mark := return (← get).mark

/-- Pass `n` characters of a line. -/
def pass (n : Nat) : Advance Unit := modify (·.passed n)

/-- Stop because of a problem in something that started at `context`. -/
def fault {α : Type} (context : Mark) (problem : Text) : Advance α := do
  throw ⟨Malformed.pickLine 1 context (← mark), problem⟩

/-- Read the characters of a line as long as they are of a kind, after those in `done`, which stand
in reverse order. -/
def readFrom (p : Nat → Bool) : (fuel : Nat) → (done : List Nat) → Advance (List Nat)
  | 0, done => return done.reverse
  | fuel + 1, done => do
    need 1
    let c ← next
    if p c then
      pass 1
      readFrom p fuel (c :: done)
    else return done.reverse

/-- Read the characters of a line as long as they are of a kind. -/
def readWhile (p : Nat → Bool) : Advance (List Nat) := do
  readFrom p (← get).bound []

/-- Pass the characters of a line as long as they are of a kind. -/
def passWhile (p : Nat → Bool) : Advance Unit := discard (readWhile p)

/-- Pass a line break, for which a carriage return and a line feed count as one. -/
def passBreak : Advance Unit := do
  need 2
  let isPair := (← next) = 0x0d && (← ahead 1) = 0x0a
  modify (·.passedBreak (if isPair then 2 else 1))

/-- Read a line break, if one is next: all but two kinds are written as a line feed. -/
def readBreak : Advance Text := do
  need 2
  let c ← next
  if !isBreak c then return []
  passBreak
  return if c = 0x2028 ∨ c = 0x2029 then Text.encodeChar c else [0x0a]

/-- Whether a line starts with three dashes or three dots that stand alone. -/
def atDocumentMark : Advance Bool := do
  let s ← get
  let c ← next
  return s.mark.column = 0 && (c = 0x2d || c = 0x2e) && (← ahead 1) = c && (← ahead 2) = c &&
    isBlankOrEnd (← ahead 3)

/-! ## Comments -/

/-- How far ahead comments are looked for. -/
def commentReach : Nat := 512

/-- Pass a comment up to the end of its line. -/
def passComment : Advance Unit := passWhile (!isBreakOrEnd ·)

/-- Look for a comment after blanks and line breaks, from `k` places ahead. Only breaks that are one
byte long are looked over. -/
def findComment : (fuel : Nat) → (k : Nat) → Advance (Option Nat)
  | 0, _ => return none
  | fuel + 1, k => do
    need (k + 1)
    let c ← ahead k
    if isBlank c || c = 0x0a || c = 0x0d then findComment fuel (k + 1)
    else
      if isBreak c && fuel ≠ 0 then need (k + 2)
      return if c = 0x23 then some k else none

/-- Pass blanks and line breaks to the place `index`. -/
def passTo (index : Nat) : (fuel : Nat) → Advance Unit
  | 0 => return ()
  | fuel + 1 => do
    need 1
    if (← mark).index < index then
      if isBreak (← next) then passBreak else pass 1
      passTo index fuel

/-- Pass a comment and those on the following lines, with only blanks between them. Every comment
has a character, so as many steps as characters are enough. -/
def passComments : (fuel : Nat) → Advance Unit
  | 0 => return ()
  | fuel + 1 => do
    passComment
    if isBreak (← next) && 0x80 ≤ (← next) then need 2
    else
      match ← findComment (commentReach - 1) 1 with
      | none => return ()
      | some k =>
        passTo ((← mark).index + k) k
        passComments fuel

/-- Look for a comment after blanks, from `k` places ahead. -/
def findLineComment : (fuel : Nat) → (k : Nat) → Advance (Option Nat)
  | 0, _ => return none
  | fuel + 1, k => do
    need (k + 1)
    let c ← ahead k
    if isBlank c then findLineComment fuel (k + 1)
    else return if c = 0x23 then some k else none

/-- Pass a comment at the end of the current line. -/
def passLineComment : Advance Unit := do
  if (← get).breaks = 0 then
    match ← findLineComment commentReach 0 with
    | none => return ()
    | some k =>
      pass k
      passComment

end Advance

end RegisterJit.Yaml
