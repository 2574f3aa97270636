import RegisterJit.Yaml.Content

/-!
# Tokens

A document is a row of tokens. Some are written, such as brackets, scalars and tags; others stand
for indentation. The ones with a text of their own are read here; `RegisterJit.Yaml.Lexer` finds
where they stand.
-/

namespace RegisterJit.Yaml

/-- What a token is. -/
inductive TokenKind
  | versionDirective (major minor : Nat)
  /-- The short form of tags that start with `lead`. -/
  | tagDirective (handle lead : Text)
  | documentStart
  | documentEnd
  | streamEnd
  | blockSequenceStart
  | blockMappingStart
  | blockEnd
  | flowSequenceStart
  | flowSequenceEnd
  | flowMappingStart
  | flowMappingEnd
  | blockEntry
  | flowEntry
  | key
  | value
  | reference (name : Text)
  | anchor (name : Text)
  | tag (handle suffix : Text)
  | scalar (isPlain : Bool) (text : Text)
  deriving DecidableEq

/-- A token with the places where it starts and ends. -/
structure Token where
  kind : TokenKind
  start : Mark
  stop : Mark

namespace Token

open Advance

/-! ## Names -/

/-- Read the name after the sign of an anchor or reference. -/
def readName : Advance Text := do
  let start ← mark
  pass 1
  let name ← readWhile isWordChar
  let c ← next
  if name.isEmpty || !(isBlankOrEnd c || isOneOf "?:,]\x7d%@\x60" c) then
    fault start "did not find expected alphabetic or numeric character"
  return textOf name

/-! ## Tags -/

/-- Whether a character may stand in the text of a tag. -/
def isTagChar (c : Nat) : Bool := isWordChar c || isOneOf ";/?:@&=+$,.!~*'()[]%" c

/-- Read an octet that is written as a percent sign and two digits, if it is of a kind. -/
def readOctet (start : Mark) (isFitting : UInt8 → Bool) (problem : Text) : Advance UInt8 := do
  need 3
  match hexDigit? (← ahead 1), hexDigit? (← ahead 2) with
  | some high, some low =>
    if (← next) ≠ 0x25 then fault start "did not find URI escaped octet"
    let octet := (high * 16 + low).toUInt8
    if !isFitting octet then fault start problem
    pass 3
    return octet
  | _, _ => fault start "did not find URI escaped octet"

/-- Read a character that is written in octets. -/
def readOctets (start : Mark) : Advance Text := do
  let lead ← readOctet start (Supply.leadByte? · |>.isSome) "found an incorrect leading UTF-8 octet"
  let width := ((Supply.leadByte? lead).map Prod.fst).getD 1
  let trail ← (List.range (width - 1)).mapM fun _ =>
    readOctet start Text.isContinuation "found an incorrect trailing UTF-8 octet"
  return lead :: trail

/-- Read the text of a tag after what was read of it. -/
def tagText (start : Mark) : (fuel : Nat) → Text → Advance Text
  | 0, t => return t
  | fuel + 1, t => do
    need 1
    let c ← next
    if !isTagChar c then return t
    else if c = 0x25 then
      let octets ← readOctets start
      tagText start fuel (t ++ octets)
    else
      pass 1
      tagText start fuel (t ++ textOf [c])

/-- Read the text of a tag, which may not be missing. -/
def readTagText (start : Mark) : Advance Text := do
  need 1
  if !isTagChar (← next) then fault start "did not find expected tag URI"
  tagText start (← get).bound []

/-- Read an exclamation mark with the name after it, and the mark that ends the name if there is
one. -/
def readHandle (start : Mark) : Advance Text := do
  need 1
  if (← next) ≠ 0x21 then fault start "did not find expected '!'"
  pass 1
  let name := textOf (← readWhile isWordChar)
  if (← next) = 0x21 then
    pass 1
    return 0x21 :: name ++ [0x21]
  else return 0x21 :: name

/-- Whether a handle is closed by a second mark. -/
def isClosedHandle (handle : Text) : Bool := 1 < handle.length && handle.getLast? == some 0x21

/-- Read a tag in full, between angle brackets. -/
def readFullTag (start : Mark) : Advance TokenKind := do
  pass 2
  let suffix ← readTagText start
  if (← next) ≠ 0x3e then fault start "did not find the expected '>'"
  pass 1
  return .tag [] suffix

/-- Read a tag with a handle, or with the single mark as its handle. The mark alone is a tag without
a handle. -/
def readShortTag (start : Mark) : Advance TokenKind := do
  let handle ← readHandle start
  if isClosedHandle handle then return .tag handle (← readTagText start)
  let suffix ← tagText start (← get).bound (handle.drop 1)
  return if suffix.isEmpty then .tag [] [0x21] else .tag [0x21] suffix

/-- Read a tag. -/
def readTag : Advance TokenKind := do
  let start ← mark
  need 2
  let kind ← if (← ahead 1) = 0x3c then readFullTag start else readShortTag start
  need 1
  if !isBlankOrEnd (← next) then fault start "did not find expected whitespace or line break"
  return kind

/-! ## Directives -/

/-- Read a part of a version number, which has one or two digits. -/
def readVersionPart (start : Mark) : Advance Nat := do
  let digits ← readWhile isDigitChar
  if digits.isEmpty then fault start "did not find expected version number"
  if 2 < digits.length then fault start "found extremely long version number"
  return digits.foldl (fun n c => n * 10 + (c - 0x30)) 0

/-- Read the version of a document. -/
def readVersion (start : Mark) : Advance TokenKind := do
  passWhile isBlank
  let major ← readVersionPart start
  if (← next) ≠ 0x2e then fault start "did not find expected digit or '.' character"
  pass 1
  return .versionDirective major (← readVersionPart start)

/-- Read the short form of tags. -/
def readTagRule (start : Mark) : Advance TokenKind := do
  passWhile isBlank
  let handle ← readHandle start
  if handle.length ≠ 1 && !isClosedHandle handle then fault start "did not find expected '!'"
  need 1
  if !isBlank (← next) then fault start "did not find expected whitespace"
  passWhile isBlank
  let lead ← readTagText start
  if !isBlankOrEnd (← next) then fault start "did not find expected whitespace or line break"
  return .tagDirective handle lead

/-- Read a directive with the rest of its line. The result has the place where it ends, too. -/
def readDirective : Advance (TokenKind × Mark) := do
  let start ← mark
  pass 1
  let name := textOf (← readWhile isWordChar)
  if name.isEmpty then fault start "could not find expected directive name"
  if !isBlankOrEnd (← next) then fault start "found unexpected non-alphabetical character"
  let kind ←
    if name = Text.ofString "YAML" then readVersion start
    else if name = Text.ofString "TAG" then readTagRule start
    else fault start "found unknown directive name"
  let stop ← mark
  passWhile isBlank
  if (← next) = 0x23 then passComment
  let c ← next
  if !isBreakOrEnd c then fault start "did not find expected comment or line break"
  if isBreak c then passBreak
  return (kind, stop)

end Token

end RegisterJit.Yaml
