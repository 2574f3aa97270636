import RegisterJit.Codec.Natural
import RegisterJit.Number.Double
import RegisterJit.Text.Bytes

/-!
# Structured data as bytes

A schema describes data; a datum of a schema is written field after field without names. Integers
and doubles have a fixed width, texts and lists are preceded by their length as a compact natural,
an optional datum by an octet that tells whether it is there. Skipped fields are not written and
read back as the zero of their schema. A schema may name kinds that cannot be written; they are
refused when a datum of them is met.

The codec knows nothing about programs: the schema of a code is given in `Proofs.Records`, where
images are shown to be data of it. `Proofs.Schemas` shows for every schema that supported data are
read back and that what is too short or too long is refused.
-/

namespace RegisterJit.Codec

/-- The shape of data. -/
inductive Schema
  | bool
  | text
  | double
  | integer (octets : Nat) (signed : Bool)
  | list (element : Schema)
  | array (element : Schema) (count : Nat)
  | optional (element : Schema)
  | record (fields : List (Text × Bool × Schema))
  /-- A kind that is refused, by its name. -/
  | refused (kind : Text)
  deriving Inhabited

/-- Data of some shape. Lists and arrays share a form, as do all integers; a list that is absent is
the one without elements. -/
inductive Datum
  | bool (b : Bool)
  | text (t : Text)
  | double (x : Double)
  | integer (i : Int)
  | list (elements : List Datum)
  | optional (element : Option Datum)
  | record (fields : List Datum)
  /-- The only datum of a refused kind. -/
  | unit
  deriving Inhabited

/-- Why bytes are no datum of a schema. -/
inductive DecodeError
  | noTag
  | noBool
  | noInteger (octets : Nat)
  | noLength
  | lengthExceeds (n : Nat)
  | listLength (cause : DecodeError)
  | refused (kind : Text)
  | inField (name : Text) (cause : DecodeError)
  | inElement (index : Nat) (cause : DecodeError)

/-- The wording of a decoding error. -/
def DecodeError.message : DecodeError → Text
  | .noTag => "failed to read pointer tag: EOF"
  | .noBool => "failed to read bool: EOF"
  | .noInteger octets =>
    Text.ofString "failed to read " ++ Text.ofNat octets ++ Text.ofString "-byte integer"
  | .noLength => "failed to decode length"
  | .lengthExceeds n => Text.ofString "length " ++ Text.ofNat n ++ Text.ofString " exceeds input"
  | .listLength cause => Text.ofString "failed to decode slice length: " ++ cause.message
  | .refused kind => Text.ofString "unsupported kind for deserialization: " ++ kind
  | .inField name cause =>
    Text.ofString "failed to deserialize field " ++ name ++ Text.ofString ": " ++ cause.message
  | .inElement index cause =>
    Text.ofString "failed to deserialize element " ++ Text.ofNat index ++ Text.ofString ": " ++
      cause.message

/-! ## Zero data -/

mutual

/-- The datum that stands where nothing was written. -/
def Schema.zero : Schema → Datum
  | .bool => .bool false
  | .text => .text []
  | .double => .double Double.zero
  | .integer _ _ => .integer 0
  | .list _ => .list []
  | .array element count => .list (List.replicate count element.zero)
  | .optional _ => .optional none
  | .record fields => .record (zeroFields fields)
  | .refused _ => .unit

/-- The zero of each field. -/
def zeroFields : List (Text × Bool × Schema) → List Datum
  | [] => []
  | (_, _, schema) :: rest => schema.zero :: zeroFields rest

end

/-! ## Writing -/

/-- The bytes of an integer of the given width. -/
def encodeInteger (octets : Nat) (i : Int) : List UInt8 :=
  LittleEndian.encode octets (LittleEndian.toUnsigned octets i)

/-- A length followed by bytes. -/
def encodeBytes (bytes : List UInt8) : List UInt8 := Natural.encode bytes.length ++ bytes

/-- The octets that a list of small integers stands for. -/
def octetsOf : List Datum → List UInt8
  | [] => []
  | .integer i :: rest => UInt8.ofInt i :: octetsOf rest
  | _ :: rest => octetsOf rest

mutual

/-- The bytes of a datum; the error is the name of the refused kind that was met. A list of octets is
written at once. A datum of another shape than the schema's has no bytes. -/
def encode : Schema → Datum → Except Text (List UInt8)
  | .bool, .bool b => .ok [if b then 1 else 0]
  | .text, .text t => .ok (encodeBytes t)
  | .double, .double x => .ok (LittleEndian.encode 8 x.bits.toNat)
  | .integer octets _, .integer i => .ok (encodeInteger octets i)
  | .list (.integer 1 false), .list elements => .ok (encodeBytes (octetsOf elements))
  | .list element, .list elements => do
    return Natural.encode elements.length ++ (← encodeAll element elements)
  | .array element _, .list elements => encodeAll element elements
  | .optional _, .optional none => .ok [0]
  | .optional element, .optional (some d) => do return 1 :: (← encode element d)
  | .record fields, .record data => encodeFields fields data
  | .refused kind, _ => .error kind
  | _, _ => .ok []

/-- The bytes of a sequence of data of one schema. -/
def encodeAll : Schema → List Datum → Except Text (List UInt8)
  | _, [] => .ok []
  | element, d :: rest => do return (← encode element d) ++ (← encodeAll element rest)

/-- The bytes of the fields that are not skipped. -/
def encodeFields : List (Text × Bool × Schema) → List Datum → Except Text (List UInt8)
  | (_, skip, schema) :: fields, d :: rest => do
    let bytes ← if skip then pure [] else encode schema d
    return bytes ++ (← encodeFields fields rest)
  | _, _ => .ok []

end

/-! ## Reading

Reading gives the datum as far as it was read, and either an error or the bytes left. -/

/-- The result of reading: a datum, complete unless there is an error, and the rest. -/
abbrev Reading (α : Type) := α × Except DecodeError (List UInt8)

/-- Read an integer of the given width. -/
def readInteger (octets : Nat) (input : List UInt8) : Except DecodeError (Nat × List UInt8) :=
  let head := input.take octets
  if head.length < octets then .error (.noInteger octets)
  else .ok (LittleEndian.decode head, input.drop octets)

/-- Read a length that the rest of the input can hold. -/
def readLength (input : List UInt8) : Except DecodeError (Nat × List UInt8) :=
  match Natural.decode input with
  | none => .error .noLength
  | some (n, rest) => if rest.length < n then .error (.lengthExceeds n) else .ok (n, rest)

/-- Read a length and that many bytes. -/
def readBytes (input : List UInt8) : Except DecodeError (List UInt8 × List UInt8) := do
  let (n, rest) ← readLength input
  return (rest.take n, rest.drop n)

/-- Read `count` data with one reader, numbering them from `index`; what is not reached is `zero`.
-/
def decodeMany (read : List UInt8 → Reading Datum) (zero : Datum) :
    (count index : Nat) → List UInt8 → Reading (List Datum)
  | 0, _, input => ([], .ok input)
  | count + 1, index, input =>
    match read input with
    | (d, .error e) => (d :: List.replicate count zero, .error (.inElement index e))
    | (d, .ok rest) =>
      let (ds, result) := decodeMany read zero count (index + 1) rest
      (d :: ds, result)

/-- Read a list: its length and then one datum after the other. -/
def decodeItems (read : List UInt8 → Reading Datum) (zero : Datum) (input : List UInt8) :
    Reading Datum :=
  match readLength input with
  | .error e => (.list [], .error (.listLength e))
  | .ok (n, rest) =>
    let (ds, result) := decodeMany read zero n 0 rest
    (.list ds, result)

mutual

/-- Read a datum. A list of octets is read at once. -/
def decode : Schema → List UInt8 → Reading Datum
  | .bool, input =>
    match input with
    | [] => (.bool false, .error .noBool)
    | b :: rest => (.bool (b != 0), .ok rest)
  | .text, input =>
    match readBytes input with
    | .error e => (.text [], .error e)
    | .ok (t, rest) => (.text t, .ok rest)
  | .double, input =>
    match readInteger 8 input with
    | .error e => (.double Double.zero, .error e)
    | .ok (x, rest) => (.double ⟨x.toUInt64⟩, .ok rest)
  | .integer octets signed, input =>
    match readInteger octets input with
    | .error e => (.integer 0, .error e)
    | .ok (x, rest) => (.integer (if signed then LittleEndian.toSigned octets x else x), .ok rest)
  | .list (.integer 1 false), input =>
    match readBytes input with
    | .error e => (.list [], .error (.listLength e))
    | .ok (bytes, rest) => (.list (bytes.map fun b => .integer b.toNat), .ok rest)
  | .list element, input => decodeItems (decode element) element.zero input
  | .array element count, input =>
    let (ds, result) := decodeMany (decode element) element.zero count 0 input
    (.list ds, result)
  | .optional element, input =>
    match input with
    | [] => (.optional none, .error .noTag)
    | tag :: rest =>
      if tag = 0 then (.optional none, .ok rest)
      else
        let (d, result) := decode element rest
        (.optional (some d), result)
  | .record fields, input =>
    let (ds, result) := decodeFields fields input
    (.record ds, result)
  | .refused kind, _ => (.unit, .error (.refused kind))

/-- Read the fields that are not skipped; after an error the remaining ones are zero. -/
def decodeFields : List (Text × Bool × Schema) → List UInt8 → Reading (List Datum)
  | [], input => ([], .ok input)
  | (name, skip, schema) :: fields, input =>
    if skip then
      let (ds, result) := decodeFields fields input
      (schema.zero :: ds, result)
    else
      match decode schema input with
      | (d, .error e) => (d :: zeroFields fields, .error (.inField name e))
      | (d, .ok rest) =>
        let (ds, result) := decodeFields fields rest
        (d :: ds, result)

end

/-- Why a byte string is not exactly one datum. -/
inductive ReadError
  | malformed (cause : DecodeError)
  | extra (count : Nat)
  /-- There is no place to put the datum. -/
  | noTarget

/-- The wording of a reading error. -/
def ReadError.message : ReadError → Text
  | .malformed cause => cause.message
  | .extra count =>
    Text.ofString "extra " ++ Text.ofNat count ++ Text.ofString " bytes left after deserialization"
  | .noTarget => "deserialize target must be a non-nil pointer"

/-- Read a byte string that holds one datum and nothing else. -/
def decodeWhole (schema : Schema) (input : List UInt8) : Datum × Except ReadError Unit :=
  match decode schema input with
  | (d, .error e) => (d, .error (.malformed e))
  | (d, .ok rest) => (d, if rest.isEmpty then .ok () else .error (.extra rest.length))

end RegisterJit.Codec
