import RegisterJit.Bytecode.Validate
import RegisterJit.Codec.Schema

/-!
# Program images

A program as bytes: the fields of each code in order, lists after their length, a nested code after
an octet that tells whether it is there.

A reader of lists stops where its input does, whatever length was announced, and the nesting of
codes is bounded by fuel, of which an image has one for each octet. `Proofs.Images` shows that
images are read back and that nothing but an image is, `Proofs.Records` that they are what the
general codec writes for the record of a code.
-/

namespace RegisterJit

namespace Codec

/-- Read `count` items with one reader, numbering them from `index` in errors. -/
def readItems {α : Type} (read : List UInt8 → Except DecodeError (α × List UInt8)) :
    (count index : Nat) → List UInt8 → Except DecodeError (List α × List UInt8)
  | 0, _, input => .ok ([], input)
  | count + 1, index, input =>
    match read input with
    | .error e => .error (.inElement index e)
    | .ok (x, rest) =>
      match readItems read count (index + 1) rest with
      | .error e => .error e
      | .ok (xs, rest) => .ok (x :: xs, rest)

/-- Read a length and that many items. -/
def readList {α : Type} (read : List UInt8 → Except DecodeError (α × List UInt8))
    (input : List UInt8) : Except DecodeError (List α × List UInt8) :=
  match readLength input with
  | .error e => .error (.listLength e)
  | .ok (n, rest) => readItems read n 0 rest

/-- Say in which field a reader failed. -/
def field {α : Type} (name : String) (r : Except DecodeError α) : Except DecodeError α :=
  r.mapError (.inField name)

/-- A length followed by the bytes of each item. -/
def encodeList {α : Type} (encode : α → List UInt8) (items : List α) : List UInt8 :=
  Natural.encode items.length ++ items.flatMap encode

end Codec

open Codec

/-! ## Writing -/

/-- The bytes of a constant: kind, double and text. -/
def Constant.encode (c : Constant) : List UInt8 :=
  [c.kind] ++ LittleEndian.encode 8 c.number.bits.toNat ++ encodeBytes c.text

/-- The bytes of a handler: kind, range, level and registers. -/
def Handler.encode (h : Handler) : List UInt8 :=
  [h.kind] ++ LittleEndian.encode 4 h.start.toNat ++ LittleEndian.encode 4 h.stop.toNat ++
    LittleEndian.encode 4 h.level.toNat ++ LittleEndian.encode 4 h.jump.index.toUInt32.toNat ++
    LittleEndian.encode 4 h.flag.index.toUInt32.toNat

namespace Code

mutual

/-- The image of a program. -/
def encode : Code → List UInt8
  | ⟨name, data, constants, names, codes, handlers, params, registerCount, strict⟩ =>
    encodeBytes name ++
    encodeList (fun w : Word => LittleEndian.encode 8 w.toNat) data.toList ++
    encodeList Constant.encode constants.toList ++
    encodeList encodeBytes names.toList ++
    (Natural.encode codes.length ++ encodeCodes codes) ++
    encodeList Handler.encode handlers.toList ++
    LittleEndian.encode 4 params.toNat ++ LittleEndian.encode 4 registerCount.toNat ++
    [if strict then 1 else 0]

/-- Each nested code after the octet that tells whether it is there. -/
def encodeCodes : List (Option Code) → List UInt8
  | [] => []
  | none :: rest => 0 :: encodeCodes rest
  | some c :: rest => 1 :: (encode c ++ encodeCodes rest)

end

end Code

/-! ## Reading -/

/-- Read a 32-bit integer. -/
def readUInt32 (input : List UInt8) : Except DecodeError (UInt32 × List UInt8) :=
  (readInteger 4 input).map fun (n, rest) => (n.toUInt32, rest)

/-- Read a 64-bit word. -/
def readWord (input : List UInt8) : Except DecodeError (Word × List UInt8) :=
  (readInteger 8 input).map fun (n, rest) => (n.toUInt64, rest)

/-- Read an octet. -/
def readOctet (input : List UInt8) : Except DecodeError (UInt8 × List UInt8) :=
  (readInteger 1 input).map fun (n, rest) => (n.toUInt8, rest)

/-- Read a truth value; every octet but zero is true. -/
def readBool (input : List UInt8) : Except DecodeError (Bool × List UInt8) :=
  match input with
  | [] => .error .noBool
  | b :: rest => .ok (b != 0, rest)

/-- Read a constant. -/
def Constant.read (input : List UInt8) : Except DecodeError (Constant × List UInt8) := do
  let (kind, input) ← field "Kind" (readOctet input)
  let (number, input) ← field "Number" (readWord input)
  let (text, input) ← field "Text" (readBytes input)
  return (⟨kind, ⟨number⟩, text⟩, input)

/-- Read a handler. -/
def Handler.read (input : List UInt8) : Except DecodeError (Handler × List UInt8) := do
  let (kind, input) ← field "Kind" (readOctet input)
  let (start, input) ← field "Begin" (readUInt32 input)
  let (stop, input) ← field "End" (readUInt32 input)
  let (level, input) ← field "DynamicEnvLevel" (readUInt32 input)
  let (jump, input) ← field "Jump" (readUInt32 input)
  let (flag, input) ← field "Flag" (readUInt32 input)
  return (⟨kind, start, stop, level, ⟨jump.toInt32⟩, ⟨flag.toInt32⟩⟩, input)

namespace Code

/-- Read the fields of a code, with a reader for nested codes. -/
def readFields (readNested : List UInt8 → Except DecodeError (Option Code × List UInt8))
    (input : List UInt8) : Except DecodeError (Code × List UInt8) := do
  let (name, input) ← field "Name" (readBytes input)
  let (data, input) ← field "Data" (readList readWord input)
  let (constants, input) ← field "Constants" (readList Constant.read input)
  let (names, input) ← field "Names" (readList readBytes input)
  let (codes, input) ← field "Codes" (readList readNested input)
  let (handlers, input) ← field "Handlers" (readList Handler.read input)
  let (params, input) ← field "Params" (readUInt32 input)
  let (registerCount, input) ← field "RegisterCount" (readUInt32 input)
  let (strict, input) ← field "Strict" (readBool input)
  return (⟨name, data.toArray, constants.toArray, names.toArray, codes, handlers.toArray, params,
    registerCount, strict⟩, input)

/-- Read a nested code: an octet that tells whether it is there, then its fields. Every nesting
takes an octet, so `fuel` need not exceed the length of the input. -/
def readNested : (fuel : Nat) → List UInt8 → Except DecodeError (Option Code × List UInt8)
  | 0, _ => .error .noTag
  | fuel + 1, input =>
    match input with
    | [] => .error .noTag
    | tag :: rest =>
      if tag = 0 then .ok (none, rest)
      else (readFields (readNested fuel) rest).map fun (c, rest) => (some c, rest)

/-- Why bytes are no program. -/
inductive ImageError
  | unreadable (cause : ReadError)
  | defective (d : ProgramDefect)

/-- The wording of an error; an absent code has none. -/
def ImageError.message? : ImageError → Option Text
  | .unreadable cause => some (Text.ofString "decode program image: " ++ cause.message)
  | .defective d => d.message?

/-- Read and check a program image. -/
def decode (input : List UInt8) : Except ImageError Code :=
  match readFields (readNested input.length) input with
  | .error e => .error (.unreadable (.malformed e))
  | .ok (c, rest) =>
    if rest.isEmpty then
      match c.validate with
      | .error d => .error (.defective d)
      | .ok () => .ok c
    else .error (.unreadable (.extra rest.length))

end Code

end RegisterJit
