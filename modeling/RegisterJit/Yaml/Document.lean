import RegisterJit.Yaml.Lexer
import RegisterJit.Yaml.Node

/-!
# Reading documents

The tokens of a document are read from left to right into its tree. What may be left out, such as
the value after a key, is read as a scalar without text. Of several documents in one text only the
first is read.
-/

namespace RegisterJit.Yaml

/-- A document being read. -/
structure Reading where
  lexer : Lexer
  /-- What the handles of tags stand for. -/
  handles : List (Text × Text)
  /-- The anchors so far with their numbers, the last one first. -/
  names : List (Text × Nat)
  /-- The nodes with anchors. -/
  anchored : Array Node

/-- A step of reading a document. -/
abbrev Reader := EStateM Malformed Reading

namespace Reader

/-! ## Tokens -/

/-- Look at the next token. -/
def peek : Reader Token := do
  let r ← get
  match r.lexer.peek with
  | .error e => throw e
  | .ok (t, lexer) =>
    set { r with lexer := lexer }
    return t

/-- Take the next token. -/
def take : Reader Unit := modify fun r => { r with lexer := r.lexer.take }

/-- Take the next token and look at the one after it. -/
def advance : Reader Token := do
  take
  peek

/-- Stop because of a token, in something that started at `context`. -/
def fail {α : Type} (context : Mark) (t : Token) (problem : Text) : Reader α :=
  throw ⟨Malformed.pickLine 0 context t.start, problem⟩

/-! ## Properties of nodes -/

/-- Take an anchor if one is next. -/
def anchor? : Reader (Option Text) := do
  match (← peek).kind with
  | .anchor name =>
    take
    return some name
  | _ => return none

/-- Take a tag if one is next and write it in full; the node starts at `start`. -/
def tag? (start : Mark) : Reader (Option Text) := do
  let t ← peek
  match t.kind with
  | .tag handle suffix =>
    take
    if handle.isEmpty then return some suffix
    match (← get).handles.lookup handle with
    | some lead => return some (lead ++ suffix)
    | none => fail start t "found undefined tag handle"
  | _ => return none

/-- Take the anchor and the tag of a node, which may stand in either order. -/
def properties : Reader (Option Text × Text) := do
  let start := (← peek).start
  match ← anchor? with
  | some name => return (some name, (← tag? start).getD [])
  | none =>
    let tag ← tag? start
    let name ← if tag.isSome then anchor? else pure none
    return (name, tag.getD [])

/-- Read a node and give it an anchor. The anchor is known inside of the node. -/
def anchoring (name? : Option Text) (read : Reader Node) : Reader Node := do
  match name? with
  | none => read
  | some name =>
    let number := (← get).anchored.size
    let place := (← peek).start
    modify fun r => { r with
      names := (name, number) :: r.names
      anchored := r.anchored.push (Node.nothing place) }
    let n ← read
    modify fun r => { r with anchored := r.anchored.setIfInBounds number n }
    return n

/-- The node that a reference names. -/
def reference (mark : Mark) (name : Text) : Reader Node := do
  match (← get).names.lookup name with
  | some number => return .reference mark name number
  | none =>
    let problem := Text.ofString "unknown anchor '" ++ name ++ Text.ofString "' referenced"
    throw (.ofProblem problem)

/-! ## Nodes -/

/-- Read a node unless the next token shows that none is there, which then starts at `place`. -/
def optional (absent : TokenKind → Bool) (place : Token → Mark) (read : Reader Node) :
    Reader Node := do
  let t ← peek
  if absent t.kind then return .nothing (place t) else read

/-- Whether a token starts the next part of a block mapping, or ends it. -/
def endsBlockPart (k : TokenKind) : Bool := k = .key || k = .value || k = .blockEnd

/-- Whether a token shows that an item of a sequence between brackets ends. -/
def endsFlowItem (k : TokenKind) : Bool := k = .flowEntry || k = .flowSequenceEnd

/-- Whether a token shows that an entry of a mapping between braces ends. -/
def endsFlowEntry (k : TokenKind) : Bool := k = .flowEntry || k = .flowMappingEnd

/-- Move to the next part between brackets, over the comma before it. -/
def nextPart (isFirst : Bool) (context : Mark) (stop : TokenKind) (problem : Text) :
    Reader Token := do
  let t ← peek
  if isFirst || t.kind = stop then return t
  if t.kind = .flowEntry then advance else fail context t problem

mutual
/-- Read a node. In a block it may be a block; as a part of a mapping it may be a sequence that is
not indented. Every second call takes a token, which bounds the depth. -/
def node : (fuel : Nat) → (isBlock mayBeFlush : Bool) → Reader Node
  | 0, _, _ => return .nothing ⟨0, 0, 0⟩
  | fuel + 1, isBlock, mayBeFlush => do
    let first ← peek
    let start := first.start
    match first.kind with
    | .reference name =>
      let n ← reference start name
      take
      return n
    | _ =>
      let (name?, tag) ← properties
      let t ← peek
      anchoring name? <| match t.kind with
        | .scalar isPlain text => do
          take
          return .scalar start (scalarTag tag isPlain text) text
        | .flowSequenceStart => do
          take
          return .sequence start (collectionTag tag "!!seq") (← flowItems fuel t.start true [])
        | .flowMappingStart => do
          take
          return .mapping start (collectionTag tag "!!map") (← flowEntries fuel t.start true [])
        | k => do
          if mayBeFlush && k = .blockEntry then
            return .sequence start (collectionTag tag "!!seq") (← flushItems fuel [])
          else if isBlock && k = .blockSequenceStart then
            take
            return .sequence start (collectionTag tag "!!seq") (← blockItems fuel t.start [])
          else if isBlock && k = .blockMappingStart then
            take
            return .mapping start (collectionTag tag "!!map") (← blockEntries fuel t.start [])
          else if name?.isSome || !tag.isEmpty then
            return .scalar start (scalarTag tag true []) []
          else fail start t "did not find expected node content"

/-- Read the items of a block that started at `context`, after those in `done`, which stand in
reverse order. -/
def blockItems : (fuel : Nat) → (context : Mark) → (done : List Node) → Reader (List Node)
  | 0, _, done => return done.reverse
  | fuel + 1, context, done => do
    let t ← peek
    if t.kind = .blockEntry then
      take
      let n ← optional (fun k => k = .blockEntry || k = .blockEnd) (fun _ => t.stop)
        (node fuel true false)
      blockItems fuel context (n :: done)
    else if t.kind = .blockEnd then
      take
      return done.reverse
    else fail context t "did not find expected '-' indicator"

/-- Read the items of a sequence that is not indented. -/
def flushItems : (fuel : Nat) → (done : List Node) → Reader (List Node)
  | 0, done => return done.reverse
  | fuel + 1, done => do
    let t ← peek
    if t.kind = .blockEntry then
      take
      let n ← optional (fun k => k = .blockEntry || endsBlockPart k) (fun _ => t.stop)
        (node fuel true false)
      flushItems fuel (n :: done)
    else return done.reverse

/-- Read the entries of a block that started at `context`. -/
def blockEntries : (fuel : Nat) → (context : Mark) → (done : List (Node × Node)) →
    Reader (List (Node × Node))
  | 0, _, done => return done.reverse
  | fuel + 1, context, done => do
    let t ← peek
    if t.kind = .key then
      take
      let key ← optional endsBlockPart (fun _ => t.stop) (node fuel true true)
      let t ← peek
      if t.kind = .value then
        take
        let value ← optional endsBlockPart (fun _ => t.stop) (node fuel true true)
        blockEntries fuel context ((key, value) :: done)
      else blockEntries fuel context ((key, .nothing t.start) :: done)
    else if t.kind = .blockEnd then
      take
      return done.reverse
    else fail context t "did not find expected key"

/-- Read the items of a sequence between brackets. -/
def flowItems : (fuel : Nat) → (context : Mark) → (isFirst : Bool) → (done : List Node) →
    Reader (List Node)
  | 0, _, _, done => return done.reverse
  | fuel + 1, context, isFirst, done => do
    let t ← nextPart isFirst context .flowSequenceEnd "did not find expected ',' or ']'"
    if t.kind = .flowSequenceEnd then
      take
      return done.reverse
    else if t.kind = .key then
      take
      let pair ← flowPair fuel t.start
      flowItems fuel context false (pair :: done)
    else
      let n ← node fuel false false
      flowItems fuel context false (n :: done)

/-- Read a mapping of one entry that is an item of a sequence. A token that stands in place of the
key is passed. -/
def flowPair : (fuel : Nat) → (start : Mark) → Reader Node
  | 0, start => return .nothing start
  | fuel + 1, start => do
    let t ← peek
    let key ←
      if t.kind = .value || endsFlowItem t.kind then do
        take
        pure (Node.nothing t.stop)
      else node fuel false false
    let t ← peek
    let value ←
      if t.kind = .value then do
        take
        optional endsFlowItem Token.start (node fuel false false)
      else pure (Node.nothing t.start)
    return .mapping start "!!map" [(key, value)]

/-- Read the entries of a mapping between braces. -/
def flowEntries : (fuel : Nat) → (context : Mark) → (isFirst : Bool) →
    (done : List (Node × Node)) → Reader (List (Node × Node))
  | 0, _, _, done => return done.reverse
  | fuel + 1, context, isFirst, done => do
    let t ← nextPart isFirst context .flowMappingEnd "did not find expected ',' or '\x7d'"
    if t.kind = .flowMappingEnd then
      take
      return done.reverse
    else if t.kind = .key then
      take
      let key ←
        optional (fun k => k = .value || endsFlowEntry k) Token.start (node fuel false false)
      let t ← peek
      let value ←
        if t.kind = .value then do
          take
          optional endsFlowEntry Token.start (node fuel false false)
        else pure (Node.nothing t.start)
      flowEntries fuel context false ((key, value) :: done)
    else
      let key ← node fuel false false
      let t ← peek
      flowEntries fuel context false ((key, .nothing t.start) :: done)
end

/-! ## Documents -/

/-- Whether a token belongs to what stands before a document. -/
def isDirective : TokenKind → Bool
  | .versionDirective .. | .tagDirective .. => true
  | _ => false

/-- Read directives; `hasVersion` tells whether one gave a version. Every step takes a token. -/
def directives : (fuel : Nat) → (hasVersion : Bool) → Reader Unit
  | 0, _ => return ()
  | fuel + 1, hasVersion => do
    let t ← peek
    match t.kind with
    | .versionDirective major minor =>
      if hasVersion then fail t.start t "found duplicate %YAML directive"
      if major ≠ 1 || minor ≠ 1 then fail t.start t "found incompatible YAML document"
      take
      directives fuel true
    | .tagDirective handle lead =>
      if ((← get).handles.lookup handle).isSome then fail t.start t "found duplicate %TAG directive"
      modify fun r => { r with handles := r.handles ++ [(handle, lead)] }
      take
      directives fuel hasVersion
    | _ => return ()

/-- Read the root of a document that starts with directives or a mark. -/
def explicitRoot (fuel : Nat) : Reader Node := do
  directives fuel false
  modify fun r => { r with handles := r.handles ++ commonHandles }
  let t ← peek
  if t.kind ≠ .documentStart then fail t.start t "did not find expected <document start>"
  take
  optional (fun k => isDirective k || k = .documentStart || k = .documentEnd || k = .streamEnd)
    Token.start (node fuel true false)

/-- Read the root of a document that starts with its content. -/
def implicitRoot (fuel : Nat) : Reader Node := do
  modify fun r => { r with handles := commonHandles }
  node fuel true false

/-- Read a document, if there is one. What follows has to start with a token. -/
def document? (fuel : Nat) : Reader (Option Document) := do
  let t ← peek
  if t.kind = .streamEnd then return none
  let root ← if isDirective t.kind || t.kind = .documentStart then explicitRoot fuel
    else implicitRoot fuel
  let _ ← peek
  return some ⟨root, (← get).anchored⟩

end Reader

/-- Read the first document of a text. A character gives at most four tokens, and of two calls at
least one takes a token, which bounds the depth. -/
def Document.read (t : Text) : Except Malformed (Option Document) :=
  let source := Source.ofText t
  match (Reader.document? (8 * source.bound)).run ⟨.ofSource source, [], [], #[]⟩ with
  | .ok d _ => .ok d
  | .error e _ => .error e

end RegisterJit.Yaml
