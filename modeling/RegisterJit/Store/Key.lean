import RegisterJit.Store.Blake2b
import RegisterJit.Bytecode.Image
import RegisterJit.Text.Printable

/-!
# Program keys

A program is known by the digest of its image. Keys are written as 64 hexadecimal digits.

Reading a key accepts both cases of letters and writing uses small ones. `Proofs.Storage` shows that
different keys have different places in the table, and that their order as bytes is that of the
listing.
-/

namespace RegisterJit

/-- What can be wrong with hexadecimal text. -/
inductive HexFault
  /-- A byte that is no digit. -/
  | invalidByte (b : UInt8)
  | oddLength
  deriving DecidableEq, Repr

namespace HexFault

/-- The number of a character, and the character itself if it is printable. -/
def character (v : Nat) : Text :=
  let digits := (Text.hexPadded 4 v).map fun b => if 0x61 ≤ b then b - 0x20 else b
  let glyph :=
    if Text.isPrintable v then Text.ofString " '" ++ Text.encodeChar v ++ Text.ofString "'" else []
  Text.ofString "U+" ++ digits ++ glyph

/-- The wording of a fault in hexadecimal text. -/
def message : HexFault → Text
  | .invalidByte b => Text.ofString "encoding/hex: invalid byte: " ++ character b.toNat
  | .oddLength => "encoding/hex: odd length hex string"

end HexFault

/-- The bytes written by pairs of hexadecimal digits. The first byte that is no digit decides; a
digit left over at the end comes last. -/
def Text.hexBytes : Text → Except HexFault (List UInt8)
  | [] => .ok []
  | [p] =>
    match hexValue? p with
    | none => .error (.invalidByte p)
    | some _ => .error .oddLength
  | p :: q :: rest =>
    match hexValue? p, hexValue? q with
    | none, _ => .error (.invalidByte p)
    | some _, none => .error (.invalidByte q)
    | some a, some b => (hexBytes rest).map ((16 * a + b).toUInt8 :: ·)

/-- The identity of a stored program: 32 bytes. -/
structure Key where
  bytes : List UInt8
  length_eq : bytes.length = 32
  deriving DecidableEq

/-- Why a text is no key. -/
inductive KeyError
  | hex (fault : HexFault)
  | wrongLength (n : Nat)
  deriving DecidableEq, Repr

/-- The wording of a key error. -/
def KeyError.message : KeyError → Text
  | .hex fault => Text.ofString "parse key: " ++ fault.message
  | .wrongLength n => Text.ofString "parse key: want 32 bytes, got " ++ Text.ofNat n

namespace Key

/-- The key that begins with some bytes: bytes past the 32nd are dropped, missing ones are zero. -/
def ofBytes (bytes : List UInt8) : Key :=
  ⟨(bytes ++ List.replicate 32 0).take 32, by simp⟩

/-- The 64 digits of a key. -/
def text (k : Key) : Text := Text.hexOfBytes k.bytes

/-- Read a key. -/
def parse (t : Text) : Except KeyError Key :=
  match Text.hexBytes t with
  | .error fault => .error (.hex fault)
  | .ok bytes =>
    if h : bytes.length = 32 then .ok ⟨bytes, h⟩ else .error (.wrongLength bytes.length)

/-- The key of an image. -/
def ofImage (image : List UInt8) : Key := ofBytes (Blake2b.sum256 image)

/-- The key of a program. -/
def ofCode (c : Code) : Key := ofImage c.encode

end Key

end RegisterJit
