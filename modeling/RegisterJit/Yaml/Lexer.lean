import RegisterJit.Yaml.Token

/-!
# Finding tokens

What a character starts depends on what came before it: how deep the brackets are nested, how far
the current block is indented, and whether a key may stand here. A key without an indicator is found
only when the colon after it is reached, and is then marked in front of tokens that were read
already; therefore a token may be taken only when it can no longer turn out to be a key.
-/

namespace RegisterJit.Yaml

/-- A place where a key without an indicator may have started, in one of the open collections. -/
structure KeyStart where
  /-- Whether there is such a place. -/
  isPossible : Bool
  /-- Nothing but a key can stand there. -/
  isRequired : Bool
  /-- The number of the token that starts the key, or of the bracket that opens the collection if
  there was no key yet. -/
  number : Nat
  mark : Mark

/-- Tokens being read. -/
structure Lexer where
  source : Source
  /-- The tokens that were read and not taken. -/
  queue : List Token
  /-- How many tokens were taken. -/
  taken : Nat
  /-- The column of the current block, or −1 outside of all blocks. -/
  indent : Int
  /-- The columns of the blocks around it, the innermost first. -/
  outer : List Int
  /-- Whether a key without an indicator may start here. -/
  keyAllowed : Bool
  /-- Where the current key may have started. -/
  key : KeyStart
  /-- The same for the collections around the current one; there is one for each open bracket. -/
  outerKeys : List KeyStart
  /-- The tokens that have to wait, since they may start a key, by their numbers; with how many
  brackets are open around them. -/
  waiting : List (Nat × Nat)

namespace Lexer

/-- The start of a document. -/
def ofSource (s : Source) : Lexer :=
  ⟨s, [], 0, -1, [], true, ⟨false, false, 0, ⟨0, 0, 0⟩⟩, [], []⟩

/-- Whether a bracket is open. -/
def isFlow (l : Lexer) : Bool := !l.outerKeys.isEmpty

/-- A problem at the current place, in something that started at `context`. -/
def malformed (l : Lexer) (context : Mark) (problem : Text) : Malformed :=
  ⟨Malformed.pickLine 1 context l.source.mark, problem⟩

/-- Stop because of a problem at the current place. -/
def fault {α : Type} (l : Lexer) (problem : Text) : Except Malformed α :=
  .error (l.malformed l.source.mark problem)

/-- Read characters. -/
def scan {α : Type} (l : Lexer) (step : Advance α) : Except Malformed (α × Lexer) := do
  let (a, s) ← step.run l.source
  return (a, { l with source := s })

/-- The next character. -/
def next (l : Lexer) : Nat := l.source.rest.headD 0

/-- How deep collections may be nested. -/
def maxDepth : Nat := 10000

/-! ## The queue -/

/-- Put a token at the end of the queue. -/
def push (l : Lexer) (kind : TokenKind) (start stop : Mark) : Lexer :=
  { l with queue := l.queue ++ [⟨kind, start, stop⟩] }

/-- Put a token without an extent in front of the token with a number. -/
def insertAt (l : Lexer) (number : Nat) (kind : TokenKind) (mark : Mark) : Lexer :=
  { l with queue := l.queue.insertIdx (number - l.taken) ⟨kind, mark, mark⟩ }

/-- The number that the next token gets. -/
def nextNumber (l : Lexer) : Nat := l.taken + l.queue.length

/-- Read a token of `n` characters. -/
def pushSign (l : Lexer) (kind : TokenKind) (n : Nat) : Lexer :=
  let s := l.source.passed n
  { l with source := s }.push kind l.source.mark s.mark

/-- Read a token. -/
def pushRead (l : Lexer) (step : Advance TokenKind) : Except Malformed Lexer := do
  let start := l.source.mark
  let (kind, l) ← l.scan step
  return l.push kind start l.source.mark

/-! ## Keys -/

/-- How far a key without an indicator may reach. -/
def keyReach : Nat := 1024

/-- The problem of a place where a key must be and is none. -/
def missingColon (l : Lexer) (k : KeyStart) : Malformed :=
  l.malformed k.mark "could not find expected ':'"

/-- Whether a key that started somewhere may still end here: on the same line and not too far. -/
def reaches (l : Lexer) (k : KeyStart) : Bool :=
  !(k.mark.line < l.source.mark.line || k.mark.index + keyReach < l.source.mark.index)

/-- What remains of a possible start of a key at the current place. -/
def checkKey (l : Lexer) (k : KeyStart) : Except Malformed KeyStart :=
  if !k.isPossible || l.reaches k then .ok k
  else if k.isRequired then .error (l.missingColon k)
  else .ok { k with isPossible := false }

/-- Let a token no longer wait. -/
def release (l : Lexer) (number : Nat) : Lexer :=
  { l with waiting := l.waiting.filter fun (n, _) => n ≠ number }

/-- Give up the current key. -/
def dropKey (l : Lexer) : Except Malformed Lexer :=
  if !l.key.isPossible then .ok l
  else if l.key.isRequired then .error (l.missingColon l.key)
  else .ok ({ l with key := { l.key with isPossible := false } }.release l.key.number)

/-- Note that a key may start here. -/
def noteKey (l : Lexer) : Except Malformed Lexer := do
  if !l.keyAllowed then return l
  let isRequired := !l.isFlow && l.indent = l.source.mark.column
  let number := l.nextNumber
  let l := (← l.dropKey).release number
  return { l with
    key := ⟨true, isRequired, number, l.source.mark⟩
    waiting := (number, l.outerKeys.length) :: l.waiting }

/-! ## Blocks -/

/-- Enter a block at a column, unless it is the current one; the token that starts it comes before
the one with the number. -/
def enterBlock (l : Lexer) (column number : Nat) (kind : TokenKind) (mark : Mark) :
    Except Malformed Lexer :=
  if l.isFlow || (column : Int) ≤ l.indent then .ok l
  else if maxDepth ≤ l.outer.length then
    .error (l.malformed mark (Text.ofString "exceeded max depth of " ++ Text.ofNat maxDepth))
  else
    .ok ({ l with indent := column, outer := l.indent :: l.outer }.insertAt number kind mark)

/-- Leave blocks right of a column; `outer` are the columns of the blocks around the current one. -/
def leaveTo (column : Int) (mark : Mark) : (outer : List Int) → Lexer → Lexer
  | [], l => l
  | i :: outer, l =>
    if l.indent ≤ column then l
    else leaveTo column mark outer ({ l with indent := i, outer := outer }.push .blockEnd mark mark)

/-- Leave the blocks that are right of a column, at a place. Between brackets indentation has no
meaning. -/
def leaveBlocks (l : Lexer) (column : Int) (mark : Mark) : Lexer :=
  if l.isFlow then l else leaveTo column mark l.outer l

/-! ## Blanks and comments -/

/-- Pass blanks and comments on a line. Tabs count as blanks only if `tabs` says so. A character at
the start of a line is passed if a byte order mark was in front when more characters were asked for.
-/
def passLineBlanks (tabs : Bool) : Advance Unit := do
  Advance.need 1
  let s ← get
  if s.mark.column = 0 && s.front = orderMark then Advance.pass 1
  Advance.passWhile fun c => c = 0x20 || (tabs && c = 0x09)
  if (← Advance.next) = 0x23 then Advance.passComments s.bound

/-- Pass blanks, comments and line breaks up to the next token. Tabs count as blanks only where no
key may start. Every step passes a line break, so as many steps as characters are enough. -/
def passBlanks : (fuel : Nat) → Lexer → Except Malformed Lexer
  | 0, l => .ok l
  | fuel + 1, l => do
    let (_, l) ← l.scan (passLineBlanks (l.isFlow || !l.keyAllowed))
    if isBreak l.next then
      let (_, l) ← l.scan Advance.passBreak
      passBlanks fuel { l with keyAllowed := l.keyAllowed || !l.isFlow }
    else return l

/-! ## Tokens of each kind -/

/-- The end of the document, on a line of its own. -/
def fetchEnd (l : Lexer) : Except Malformed Lexer := do
  let m := l.source.mark
  let m := if m.column = 0 then m else ⟨m.index, m.line + 1, 0⟩
  let l := { l with source := { l.source with mark := m } }.leaveBlocks (-1) m
  return { ← l.dropKey with keyAllowed := false }.push .streamEnd m m

/-- A directive. -/
def fetchDirective (l : Lexer) : Except Malformed Lexer := do
  let l := { ← (l.leaveBlocks (-1) l.source.mark).dropKey with keyAllowed := false }
  let start := l.source.mark
  let ((kind, stop), l) ← l.scan Token.readDirective
  return l.push kind start stop

/-- The mark that starts or ends a document. -/
def fetchDocumentMark (l : Lexer) (kind : TokenKind) : Except Malformed Lexer := do
  let l := { ← (l.leaveBlocks (-1) l.source.mark).dropKey with keyAllowed := false }
  return l.pushSign kind 3

/-- An opening bracket. -/
def fetchOpening (l : Lexer) (kind : TokenKind) : Except Malformed Lexer := do
  let l ← l.noteKey
  let l := { l with
    key := ⟨false, false, l.nextNumber, l.source.mark⟩
    outerKeys := l.key :: l.outerKeys
    keyAllowed := true }
  if maxDepth < l.outerKeys.length then
    l.fault (Text.ofString "exceeded max depth of " ++ Text.ofNat maxDepth)
  return l.pushSign kind 1

/-- A closing bracket. The opening one no longer waits if nothing in between may have been a key. -/
def fetchClosing (l : Lexer) (kind : TokenKind) : Except Malformed Lexer := do
  let l ← l.dropKey
  let l := match l.outerKeys with
    | [] => l
    | k :: rest => { l with key := k, outerKeys := rest }.release l.key.number
  return { l with keyAllowed := false }.pushSign kind 1

/-- The comma between entries. -/
def fetchComma (l : Lexer) : Except Malformed Lexer := do
  return { ← l.dropKey with keyAllowed := true }.pushSign .flowEntry 1

/-- The dash before an entry. -/
def fetchDash (l : Lexer) : Except Malformed Lexer := do
  if !l.isFlow && !l.keyAllowed then
    l.fault "block sequence entries are not allowed in this context"
  let m := l.source.mark
  let l ← l.enterBlock m.column l.nextNumber .blockSequenceStart m
  return { ← l.dropKey with keyAllowed := true }.pushSign .blockEntry 1

/-- The question mark before a key. -/
def fetchQuestion (l : Lexer) : Except Malformed Lexer := do
  if !l.isFlow && !l.keyAllowed then l.fault "mapping keys are not allowed in this context"
  let m := l.source.mark
  let l ← l.enterBlock m.column l.nextNumber .blockMappingStart m
  return { ← l.dropKey with keyAllowed := !l.isFlow }.pushSign .key 1

/-- The colon before a value. What may have been a key is one now. -/
def fetchColon (l : Lexer) : Except Malformed Lexer := do
  let k ← l.checkKey l.key
  let l := { l with key := { k with isPossible := false } }
  if k.isPossible then
    let l := l.insertAt k.number .key k.mark
    let l ← l.enterBlock k.mark.column k.number .blockMappingStart k.mark
    return { l.release k.number with keyAllowed := false }.pushSign .value 1
  else
    if !l.isFlow && !l.keyAllowed then
      l.fault "mapping values are not allowed in this context"
    let m := l.source.mark
    let l ← l.enterBlock m.column l.nextNumber .blockMappingStart m
    return { l with keyAllowed := !l.isFlow }.pushSign .value 1

/-- A token with a text that may start a key. -/
def fetchWord (l : Lexer) (step : Advance TokenKind) : Except Malformed Lexer := do
  return { ← (← l.noteKey).pushRead step with keyAllowed := false }

/-- A block scalar. -/
def fetchBlock (l : Lexer) (isLiteral : Bool) : Except Malformed Lexer := do
  let l ← (← l.dropKey).pushRead (.scalar false <$> readBlock isLiteral l.indent)
  return { l with keyAllowed := true }

/-- A plain scalar. A key may follow if the scalar ends with its line. -/
def fetchPlain (l : Lexer) : Except Malformed Lexer := do
  let l ← l.noteKey
  let start := l.source.mark
  let ((text, isBroken), l) ← l.scan (readPlain l.isFlow (l.indent + 1))
  return { l with keyAllowed := isBroken }.push (.scalar true text) start l.source.mark

/-- Whether a plain scalar starts at the current place. -/
def startsPlain (l : Lexer) : Bool :=
  let c := l.next
  let d := l.source.rest.getD 1 0
  !(isBlankOrEnd c || isOneOf "-?:,[]\x7b\x7d#&*!|>'\"%@\x60" c) || (c = 0x2d && !isBlank d) ||
    (!l.isFlow && (c = 0x3f || c = 0x3a) && !isBlankOrEnd d)

/-! ## Any token -/

/-- Read what the next character starts. -/
def fetchContent (l : Lexer) : Except Malformed Lexer :=
  let c := l.next
  let parts := isBlankOrEnd (l.source.rest.getD 1 0)
  if c = 0x5b then l.fetchOpening .flowSequenceStart
  else if c = 0x7b then l.fetchOpening .flowMappingStart
  else if c = 0x5d then l.fetchClosing .flowSequenceEnd
  else if c = 0x7d then l.fetchClosing .flowMappingEnd
  else if c = 0x2c then l.fetchComma
  else if c = 0x2d && parts then l.fetchDash
  else if c = 0x3f && (l.isFlow || parts) then l.fetchQuestion
  else if c = 0x3a && (l.isFlow || parts) then l.fetchColon
  else if c = 0x2a then l.fetchWord (.reference <$> Token.readName)
  else if c = 0x26 then l.fetchWord (.anchor <$> Token.readName)
  else if c = 0x21 then l.fetchWord Token.readTag
  else if c = 0x7c && !l.isFlow then l.fetchBlock true
  else if c = 0x3e && !l.isFlow then l.fetchBlock false
  else if c = 0x27 then l.fetchWord (.scalar false <$> readQuoted true)
  else if c = 0x22 then l.fetchWord (.scalar false <$> readQuoted false)
  else if l.startsPlain then l.fetchPlain
  else l.fault "found character that cannot start any token"

/-- Read the next token with what stands before it, and a comment after it. -/
def fetch (l : Lexer) : Except Malformed Lexer := do
  let before := l.source.mark
  let l ← l.passBlanks l.source.bound
  let l := l.leaveBlocks l.source.mark.column before
  let (isMark, l) ← l.scan do
    Advance.need 4
    Advance.atDocumentMark
  let c := l.next
  if c = 0 then l.fetchEnd
  else if l.source.mark.column = 0 && c = 0x25 then l.fetchDirective
  else if isMark then l.fetchDocumentMark (if c = 0x2d then .documentStart else .documentEnd)
  else
    let l ← l.fetchContent
    if l.queue.getLast?.any (·.kind = .blockEntry) then return l
    return (← l.scan Advance.passLineComment).2

/-! ## Taking tokens -/

/-- How many tokens are read before one is taken. -/
def lookahead : Nat := 3

/-- What may have been the start of a key where so many brackets are open. -/
def keyAt? (l : Lexer) (depth : Nat) : Option KeyStart :=
  if depth ≤ l.outerKeys.length then (l.key :: l.outerKeys)[l.outerKeys.length - depth]? else none

/-- Change what may have been the start of a key where so many brackets are open. -/
def setKeyAt (l : Lexer) (depth : Nat) (k : KeyStart) : Lexer :=
  if depth = l.outerKeys.length then { l with key := k }
  else { l with outerKeys := l.outerKeys.set (l.outerKeys.length - depth - 1) k }

/-- Read tokens until the next one can be taken. Every step reads a character or the end of the
document, and at the end no key goes on, so a few steps more than characters are enough. -/
def fill : (fuel : Nat) → Lexer → Except Malformed Lexer
  | 0, l => .ok l
  | fuel + 1, l =>
    if l.queue.length < lookahead then l.fetch >>= fill fuel
    else
      match l.waiting.lookup l.taken with
      | none => .ok l
      | some depth =>
        match l.keyAt? depth with
        | none => .ok l
        | some k => do
          let k ← l.checkKey k
          if k.isPossible then l.fetch >>= fill fuel else return l.setKeyAt depth k

/-- Look at the next token. -/
def peek (l : Lexer) : Except Malformed (Token × Lexer) :=
  match l.fill (l.source.bound + lookahead) with
  | .error e => .error e
  | .ok l =>
    match l.queue with
    | t :: _ => .ok (t, l)
    | [] => .error (.ofProblem "unknown problem parsing YAML content")

/-- Take the next token. -/
def take (l : Lexer) : Lexer :=
  { l.release l.taken with queue := l.queue.drop 1, taken := l.taken + 1 }

end Lexer

end RegisterJit.Yaml
