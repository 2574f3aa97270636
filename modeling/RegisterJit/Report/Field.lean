import RegisterJit.Text.Quote

/-!
# Fields

A field is how one argument of a message is laid out: its sign, padding, width and precision. Each
kind of argument has its own ways to be written into a field; all of them end by padding the written
characters to the width, on the left unless the field says otherwise.
-/

namespace RegisterJit

/-- The layout of one argument. -/
structure Field where
  /-- Write a sign before positive numbers too, and keep quoted texts to ASCII (flag `+`). -/
  signed : Bool := false
  /-- Pad on the right (flag `-`). -/
  leftAligned : Bool := false
  /-- Write the base of numerals, and quote texts raw if they allow it (flag `#`). -/
  marked : Bool := false
  /-- Leave a space for the sign, and between the bytes of a text (flag ` `). -/
  spaced : Bool := false
  /-- Pad with zeros (flag `0`). -/
  zeroFilled : Bool := false
  /-- Write texts as source texts have them. -/
  literal : Bool := false
  /-- The least number of characters. -/
  width : Nat := 0
  /-- The number of digits at least, or of characters at most. -/
  precision? : Option Nat := none

/-- Digits of either case. -/
inductive LetterCase
  | lower
  | upper

namespace LetterCase

/-- A digit below sixteen. -/
def digit : LetterCase → Nat → UInt8
  | .lower, n => Text.hexDigit n
  | .upper, n => if n < 10 then Text.hexDigit n else Text.hexDigit n - 0x20

/-- The letter after the zero that marks hexadecimal numerals. -/
def mark : LetterCase → UInt8
  | .lower => 0x78
  | .upper => 0x58

/-- The numeral of a number in a base up to sixteen. -/
def numeral (c : LetterCase) (base n : Nat) : Text :=
  (Nat.toDigits base n).map fun d => c.digit ((Text.hexValue? d.toNat.toUInt8).getD 0)

end LetterCase

namespace Field

/-- `n` characters of padding. Zeros only stand on the left. -/
def padding (f : Field) (n : Nat) : Text :=
  List.replicate n (if f.zeroFilled && !f.leftAligned then 0x30 else 0x20)

/-- A text padded to the width. -/
def pad (f : Field) (t : Text) : Text :=
  let fill := f.padding (f.width - t.glyphs.length)
  if f.leftAligned then t ++ fill else fill ++ t

/-- A text padded to the width with spaces. -/
def padWithSpaces (f : Field) (t : Text) : Text := { f with zeroFilled := false }.pad t

/-- As many characters of a text as the precision allows. -/
def shorten (f : Field) (t : Text) : Text :=
  match f.precision? with
  | none => t
  | some n => (t.glyphs.take n).flatMap Text.Glyph.bytes

/-- A text as it is. -/
def plain (f : Field) (t : Text) : Text := f.pad (f.shorten t)

/-- A text between quotes: raw where the field is marked and the text allows it. -/
def quoted (f : Field) (t : Text) : Text :=
  let t := f.shorten t
  if f.marked && t.fitsBackquotes then f.pad ([0x60] ++ t ++ [0x60])
  else f.pad (t.quoteWithin f.signed)

/-- The bytes of a text as hexadecimal digits, as many bytes as the precision allows. The base is
marked once, or for every byte where spaces part them. -/
def hexBytes (f : Field) (c : LetterCase) (t : Text) : Text :=
  let t := t.take (f.precision?.getD t.length)
  let mark : Text := if f.marked then [0x30, c.mark] else []
  let digits := t.map fun b => [c.digit (b.toNat / 16), c.digit (b.toNat % 16)]
  if t.isEmpty then f.padding f.width
  else if f.spaced then f.pad (Text.join [0x20] (digits.map (mark ++ ·)))
  else f.pad (mark ++ digits.flatten)

/-- The sign of a number: a minus, or for other numbers what the field asks for. -/
def signOf (f : Field) (i : Int) : Text :=
  if i < 0 then [0x2d] else if f.signed then [0x2b] else if f.spaced then [0x20] else []

/-- How many digits a number has at least: the precision, or else what fills the width with
zeros. -/
def leastDigits (f : Field) (i : Int) : Nat :=
  match f.precision? with
  | some n => n
  | none => if f.zeroFilled && !f.leftAligned then f.width - (f.signOf i).length else 0

/-- What stands between the sign and the digits to mark the base. -/
def baseMark (f : Field) (c : LetterCase) (base : Nat) (digits : Text) : Text :=
  if f.marked then
    match base with
    | 2 => [0x30, 0x62]
    | 8 => if digits.head? = some 0x30 then [] else [0x30]
    | 16 => [0x30, c.mark]
    | _ => []
  else []

/-- An integer in a base, with a mark of its own before the one of the base. A zero whose precision
is zero leaves nothing but padding. -/
def integer (f : Field) (c : LetterCase) (mark : Text) (base : Nat) (i : Int) : Text :=
  if f.precision? = some 0 ∧ i = 0 then List.replicate f.width 0x20
  else
    let digits := c.numeral base i.natAbs
    let digits := List.replicate (f.leastDigits i - digits.length) 0x30 ++ digits
    f.padWithSpaces (f.signOf i ++ (mark ++ (f.baseMark c base digits ++ digits)))

/-- The 64-bit pattern of an integer as a natural number. -/
def pattern64 (i : Int) : Nat := (i % 2 ^ 64).toNat

/-- The character with a number. -/
def character (f : Field) (i : Int) : Text := f.pad (Text.encodeChar (pattern64 i))

/-- The character with a number between single quotes. -/
def quotedCharacter (f : Field) (i : Int) : Text :=
  f.pad (Text.quoteChar f.signed (pattern64 i))

/-- The number of a character as `U+0041`, and the character itself where the field is marked and
the character can be shown. -/
def codePoint (f : Field) (i : Int) : Text :=
  let v := pattern64 i
  let digits := LetterCase.upper.numeral 16 v
  let zeros := List.replicate (max 4 (f.precision?.getD 4) - digits.length) 0x30
  let shown : Text :=
    if f.marked && Text.isPrintable v then [0x20, 0x27] ++ Text.encodeChar v ++ [0x27] else []
  f.padWithSpaces ([0x55, 0x2b] ++ zeros ++ digits ++ shown)

end Field

end RegisterJit
