import RegisterJit.Compile.Link
import RegisterJit.Text.Blank

/-!
# Debug records

A record is a message with named values, on one line. A text that could be taken for something else
is quoted.
-/

namespace RegisterJit

/-- A value in a record. -/
inductive RecordValue
  | text (t : Text)
  | number (n : Nat)

namespace RecordValue

/-- Whether a character makes a text need quotes: blanks, equals signs, double quotes, and what is
not printable. -/
def needsQuotes (g : Text.Glyph) : Bool :=
  match g.scalar? with
  | none => true
  | some v =>
    if v < 0x80 then v ≤ 0x20 || v == 0x3d || v == 0x22
    else v == Text.replacement || Text.isBlank v || !Text.isPrintable v

/-- A value as it stands in a record. -/
def shown : RecordValue → Text
  | .number n => Text.ofNat n
  | .text t => if t.isEmpty || (Text.glyphs t).any needsQuotes then Text.quote t else t

end RecordValue

/-- A message with named values. -/
structure Record where
  message : Text
  values : List (String × RecordValue)

/-- The line of a debug record. -/
def Record.line (r : Record) : Text :=
  Text.ofString "DEBUG " ++ r.message ++ r.values.flatMap fun (name, v) =>
    Text.ofString " " ++ Text.ofString name ++ Text.ofString "=" ++ v.shown

/-- A record for each code of a session, given where the first one starts. Codes follow each other
without gaps. -/
def CompiledUnit.records (start : Nat) : List CompiledUnit → List Record
  | [] => []
  | c :: rest =>
    ⟨"compiled program",
      [("name", .text c.unit.code.name), ("words", .number c.unit.code.data.size),
        ("bytes", .number (c.stop - start))]⟩ :: records c.stop rest

/-- The records of what a session has compiled. -/
def Session.records (s : Session) : List Record :=
  CompiledUnit.records Session.start.size s.programs.toList

/-- The record of a session that was placed. -/
def Session.linkRecord (s : Session) (img : Image) : Record :=
  ⟨"linked session", [("base", .text (Text.ofString "0x" ++ Text.ofNatHex img.base.toNat)),
    ("bytes", .number img.code.size), ("programs", .number s.programs.size),
    ("addresses", .number s.addresses.size)]⟩

end RegisterJit
