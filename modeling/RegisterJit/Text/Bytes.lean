import RegisterJit.Codec.LittleEndian

/-!
# Texts

A text is a sequence of bytes. Most texts are UTF-8, but nothing guarantees it: names, literals and
printed lines may hold any bytes, so every rule about texts is stated on bytes.

Comparison is by bytes, from the first that differs. The functions for digits and for cutting a text
at a byte are used by every reader; a byte below `0x80` is never part of another character, so
cutting there is safe.
-/

namespace RegisterJit

/-- A text: bytes, usually (but not necessarily) UTF-8. -/
abbrev Text := List UInt8

namespace Text

/-- The UTF-8 bytes of a string. -/
def ofString (s : String) : Text := s.toUTF8.data.toList

instance : Coe String Text := ⟨ofString⟩

/-- The string whose UTF-8 bytes these are, if they are UTF-8. -/
def toString? (t : Text) : Option String := String.fromUTF8? ⟨t.toArray⟩

/-- Decimal numeral of a natural number. -/
def ofNat (n : Nat) : Text := (Nat.toDigits 10 n).map fun c => c.toNat.toUInt8

/-- Decimal numeral of an integer, with a minus sign when negative. -/
def ofInt (i : Int) : Text :=
  if i < 0 then 0x2d :: ofNat i.natAbs else ofNat i.natAbs

/-- The lower-case hexadecimal digit of a number below sixteen. -/
def hexDigit (n : Nat) : UInt8 :=
  if n < 10 then (0x30 + n).toUInt8 else (0x57 + n).toUInt8

/-- Exactly `width` hexadecimal digits of `n`, most significant first; higher digits are dropped. -/
def hexPadded : (width : Nat) → (n : Nat) → Text
  | 0, _ => []
  | width + 1, n => hexPadded width (n / 16) ++ [hexDigit (n % 16)]

/-- Hexadecimal numeral without leading zeros. -/
def ofNatHex (n : Nat) : Text := (Nat.toDigits 16 n).map fun c => c.toNat.toUInt8

/-- Two hexadecimal digits for each byte. -/
def hexOfBytes (bytes : List UInt8) : Text := bytes.flatMap fun b => hexPadded 2 b.toNat

/-- The value of a hexadecimal digit of either case. -/
def hexValue? (b : UInt8) : Option Nat :=
  if 0x30 ≤ b ∧ b ≤ 0x39 then some (b.toNat - 0x30)
  else if 0x61 ≤ b ∧ b ≤ 0x66 then some (b.toNat - 0x57)
  else if 0x41 ≤ b ∧ b ≤ 0x46 then some (b.toNat - 0x37)
  else none

/-- Whether `b` is an ASCII decimal digit. -/
def isDigit (b : UInt8) : Bool := 0x30 ≤ b && b ≤ 0x39

/-- The value of a decimal digit. -/
def digitValue (b : UInt8) : Nat := b.toNat - 0x30

/-- An ASCII letter in lower case; other bytes get bit 5 set as well. -/
def lower (b : UInt8) : UInt8 := b ||| 0x20

/-- Cut at every occurrence of the byte `sep`; the pieces joined by `sep` give the text back. -/
def splitAt (sep : UInt8) : Text → List Text
  | [] => [[]]
  | b :: rest =>
    if b = sep then [] :: splitAt sep rest
    else
      match splitAt sep rest with
      | [] => [[b]]
      | piece :: pieces => (b :: piece) :: pieces

/-- The lines of a text: the pieces between line feeds. -/
def lines (t : Text) : List Text := splitAt 0x0a t

/-- Join pieces with a separator between neighbours. -/
def join (sep : Text) (ts : List Text) : Text := (ts.intersperse sep).flatten

/-- Cut around the first occurrence of the byte `sep`; without one the second part is empty. -/
def cut (sep : UInt8) : Text → Text × Text
  | [] => ([], [])
  | b :: rest =>
    if b = sep then ([], rest)
    else
      let (before, after) := cut sep rest
      (b :: before, after)

/-- Lexicographic order of bytes. -/
def bytesLt : Text → Text → Bool
  | [], [] => false
  | [], _ :: _ => true
  | _ :: _, [] => false
  | a :: as, b :: bs => if a < b then true else if b < a then false else bytesLt as bs

end Text

end RegisterJit
