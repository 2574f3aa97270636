import RegisterJit.Text.Printable

/-!
# Quoted texts

A quoted text stands between double quotes. Printable characters are written as themselves, a
quote and a backslash after a backslash, seven control characters by their letter, and everything
else by its number: `\xHH` for a byte, `\uHHHH` and `\UHHHHHHHH` for a character. Reading accepts
more spellings than writing produces (octal bytes, any character by its number).

Names and constants of listings are quoted, and so are keys in messages. `Proofs.Quoting` shows that
reading gives the text back, for all texts and not for UTF-8 only, and that nothing inside the
quotes ends them.
-/

namespace RegisterJit.Text

/-- The double quote. -/
def quoteMark : UInt8 := 0x22

/-- The backslash. -/
def backslash : UInt8 := 0x5c

/-- The letter that names a control character after a backslash. -/
def controlLetter? (v : Nat) : Option UInt8 :=
  match v with
  | 0x07 => some 0x61
  | 0x08 => some 0x62
  | 0x0c => some 0x66
  | 0x0a => some 0x6e
  | 0x0d => some 0x72
  | 0x09 => some 0x74
  | 0x0b => some 0x76
  | _ => none

/-- A character that is not written as itself: by its letter, or by its number. -/
def escapeScalar (v : Nat) : Text :=
  match controlLetter? v with
  | some letter => [backslash, letter]
  | none =>
    if v < 0x20 ∨ v = 0x7f then [backslash, 0x78] ++ hexPadded 2 v
    else if v < 0x10000 then [backslash, 0x75] ++ hexPadded 4 v
    else [backslash, 0x55] ++ hexPadded 8 v

/-- A character as it stands between quotes of the kind `mark`, where `ascii` leaves no character
outside ASCII as itself. -/
def quoteScalar (mark : UInt8) (ascii : Bool) (v : Nat) : Text :=
  if v = mark.toNat ∨ v = 0x5c then [backslash, v.toUInt8]
  else if isPrintable v && (!ascii || v < 0x80) then encodeChar v
  else escapeScalar v

/-- A character as it stands between double quotes; a byte that is no character is written by its
number. -/
def quoteGlyph (ascii : Bool) (g : Glyph) : Text :=
  match g.scalar? with
  | none => g.bytes.flatMap fun b => [backslash, 0x78] ++ hexPadded 2 b.toNat
  | some v => quoteScalar quoteMark ascii v

/-- A text between double quotes, within ASCII if asked to. -/
def quoteWithin (ascii : Bool) (t : Text) : Text :=
  [quoteMark] ++ (glyphs t).flatMap (quoteGlyph ascii) ++ [quoteMark]

/-- A text between double quotes. -/
def quote (t : Text) : Text := quoteWithin false t

/-- Whether a text can stand between backquotes as it is: it is well formed, and holds no backquote,
no control character but the tab, and no byte order mark. -/
def fitsBackquotes (t : Text) : Bool :=
  (glyphs t).all fun g =>
    match g.scalar? with
    | none => false
    | some v => v = 0x09 || (0x20 ≤ v && v ≠ 0x60 && v ≠ 0x7f && v ≠ 0xfeff)

/-- The number written by the first `n` hexadecimal digits, and what follows them. -/
def readHex : (n : Nat) → (acc : Nat) → Text → Option (Nat × Text)
  | 0, acc, t => some (acc, t)
  | _ + 1, _, [] => none
  | n + 1, acc, b :: rest => (hexValue? b).bind fun d => readHex n (acc * 16 + d) rest

/-- Whether `v` is a character's number. -/
def isScalar (v : Nat) : Bool := v < 0xd800 || (0xe000 ≤ v && v ≤ 0x10ffff)

/-- A character between single quotes; what is no character's number shows the replacement
character. -/
def quoteChar (ascii : Bool) (v : Nat) : Text :=
  [0x27] ++ quoteScalar 0x27 ascii (if isScalar v then v else replacement) ++ [0x27]

/-- What an escape denotes, given the letter after the backslash and what follows: the bytes, and
the rest of the text. -/
def readEscape (letter : UInt8) (rest : Text) : Option (Text × Text) :=
  match letter with
  | 0x61 => some ([0x07], rest)
  | 0x62 => some ([0x08], rest)
  | 0x66 => some ([0x0c], rest)
  | 0x6e => some ([0x0a], rest)
  | 0x72 => some ([0x0d], rest)
  | 0x74 => some ([0x09], rest)
  | 0x76 => some ([0x0b], rest)
  | 0x5c => some ([backslash], rest)
  | 0x22 => some ([quoteMark], rest)
  | 0x78 => (readHex 2 0 rest).map fun (v, r) => ([v.toUInt8], r)
  | 0x75 =>
    (readHex 4 0 rest).bind fun (v, r) => if isScalar v then some (encodeChar v, r) else none
  | 0x55 =>
    (readHex 8 0 rest).bind fun (v, r) => if isScalar v then some (encodeChar v, r) else none
  | _ =>
    if 0x30 ≤ letter ∧ letter ≤ 0x37 then
      match rest with
      | b :: c :: r =>
        if 0x30 ≤ b ∧ b ≤ 0x37 ∧ 0x30 ≤ c ∧ c ≤ 0x37 then
          let v := digitValue letter * 64 + digitValue b * 8 + digitValue c
          if v ≤ 255 then some ([v.toUInt8], r) else none
        else none
      | _ => none
    else none

/-- Read up to the closing quote, which must end the text; `fuel` bounds the characters read. -/
def unquoteBody : (fuel : Nat) → Text → Option Text
  | 0, _ => none
  | _ + 1, [] => none
  | fuel + 1, b :: rest =>
    if b = quoteMark then if rest.isEmpty then some [] else none
    else if b = 0x0a then none
    else if b = backslash then
      match rest with
      | [] => none
      | letter :: r =>
        (readEscape letter r).bind fun (bytes, r') => (unquoteBody fuel r').map (bytes ++ ·)
    else
      let read := readChar b rest
      (unquoteBody fuel read.2).map (encodeChar (read.1.getD replacement) ++ ·)

/-- The text that a quoted text denotes; `none` when it is not well formed. Ill-formed UTF-8
between the quotes is read as replacement characters. -/
def unquote? : Text → Option Text
  | [] => none
  | b :: rest => if b = quoteMark then unquoteBody (rest.length + 1) rest else none

end RegisterJit.Text
