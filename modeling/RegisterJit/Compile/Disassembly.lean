import RegisterJit.Compile.Link
import RegisterJit.X86.Decode

/-!
# Disassembly

The bytes of an image cut into instructions, with the thunks, the entries of codes and the
boundaries of handlers marked.

What is printed for the bytes of an image is read from them by the decoder and not from the pieces
they were made of, so a listing shows what the processor will execute. The marks come from the
tables of the image.
-/

namespace RegisterJit

namespace Disassembly

/-- A line of a disassembly. -/
inductive Line
  /-- Something begins here. -/
  | mark (label : Text)
  | instruction (address : UInt64) (bytes : List UInt8)
  /-- A byte that begins no instruction. -/
  | byte (address : UInt64) (value : UInt8)

/-- Bytes as two hexadecimal digits each, with blanks between. -/
def spacedHex (bytes : List UInt8) : Text :=
  Text.join " " (bytes.map fun b => Text.hexPadded 2 b.toNat)

/-- A line without the address of its instruction. -/
def Line.body : Line → Text
  | .mark label => label ++ Text.ofString ":"
  | .instruction _ bytes => spacedHex bytes
  | .byte _ value => Text.ofString "db 0x" ++ Text.hexPadded 2 value.toNat

/-- The indented address of an instruction. -/
def Line.address : Line → Text
  | .mark _ => []
  | .instruction a _ | .byte a _ =>
    Text.ofString "  0x" ++ Text.ofNatHex a.toNat ++ Text.ofString ": "

/-- A line of text. -/
def Line.text (l : Line) : Text := l.address ++ l.body ++ Text.ofString "\n"

/-- A line of text without the address. -/
def Line.plainText : Line → Text
  | l@(.mark _) => l.body ++ Text.ofString "\n"
  | l => Text.ofString "  " ++ l.body ++ Text.ofString "\n"

/-- The marks of one code. -/
def unitMarks (p : PlacedUnit) : List (UInt64 × Text) :=
  let name := p.unit.code.name
  let handlerMarks := ((p.unit.code.handlers.toList.zip p.handlers.toList).zipIdx).flatMap
    fun ((h, start, stop), i) =>
      let label := name ++ Text.ofString ": " ++ Handler.kindName h.kind ++ Text.ofString " " ++
        Text.ofNat i
      [(start, label ++ Text.ofString " begin"), (stop, label ++ Text.ofString " end")]
  (p.entry, name) :: handlerMarks

/-- The marks of an image. -/
def marks (img : Image) : List (UInt64 × Text) :=
  (img.entryThunk, "<entry thunk>") :: (img.stubThunk, "<stub thunk>") ::
    img.programs.toList.flatMap unitMarks

/-- The marks at an address, in the order of their bytes. -/
def marksAt (all : List (UInt64 × Text)) (pc : UInt64) : List Text :=
  ((all.filter fun m => m.1 == pc).map (·.2)).mergeSort fun a b => !Text.bytesLt b a

/-- The instruction or byte at the start of some bytes, and the bytes after it. -/
def splitFirst (bytes : List UInt8) : Option (List UInt8 × List UInt8) :=
  match X86.decode bytes with
  | none => none
  | some (_, rest) => some (bytes.take (bytes.length - rest.length), rest)

/-- The lines of bytes at an address. Every step takes at least one byte, so as many steps as bytes
are enough. -/
def linesFrom (all : List (UInt64 × Text)) : (fuel : Nat) → UInt64 → List UInt8 → List Line
  | 0, _, _ => []
  | _, _, [] => []
  | fuel + 1, pc, b :: rest =>
    (marksAt all pc).map .mark ++
    match splitFirst (b :: rest) with
    | none => .byte pc b :: linesFrom all fuel (pc + 1) rest
    | some (first, rest) =>
      .instruction pc first :: linesFrom all fuel (pc + first.length.toUInt64) rest

/-- The lines of an image. -/
def lines (img : Image) : List Line :=
  linesFrom (marks img) img.code.size img.base img.code.toList

end Disassembly

end RegisterJit
