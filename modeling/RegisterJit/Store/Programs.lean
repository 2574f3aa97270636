import RegisterJit.Store.Key
import RegisterJit.Store.Table

/-!
# Program store

Images of programs in a table, each under the digest of its bytes. A program stored twice is stored
once; what is read back is checked against its key, read and validated.

All keys of programs are under one prefix of the table, so a listing is a range of it.
`Proofs.Storage` describes what a store answers by the requests before, on the assumption that
different images have different keys.
-/

namespace RegisterJit

/-- Stored programs. -/
structure ProgramStore where
  table : Table

/-- Why a program cannot be had. -/
inductive GetError
  | notFound (k : Key)
  /-- The bytes under the key have another digest. -/
  | mismatch (k : Key)
  | image (cause : Code.ImageError)

namespace GetError

/-- The wording of an error; an image without one of its codes has none. -/
def message? : GetError → Option Text
  | .notFound k => some (Text.ofString "get " ++ k.text ++ Text.ofString ": program not found")
  | .mismatch k =>
    some (Text.ofString "get " ++ k.text ++ Text.ofString ": stored image does not match its key")
  | .image cause => cause.message?

end GetError

namespace ProgramStore

/-- A store without programs. -/
def empty : ProgramStore := ⟨[]⟩

/-- What the keys of programs begin with in the table. -/
def namespaceStart : Text := "program/"

/-- The first byte string after all that begin with `namespaceStart`. -/
def namespaceStop : Text := "program0"

/-- Where a program is in the table. -/
def tableKey (k : Key) : Text := namespaceStart ++ k.bytes

/-- Store a program. -/
def put (s : ProgramStore) (c : Code) : Key × ProgramStore :=
  let image := c.encode
  let k := Key.ofImage image
  (k, ⟨s.table.insert (tableKey k) image⟩)

/-- The program under a key. -/
def get (s : ProgramStore) (k : Key) : Except GetError Code :=
  match s.table.find? (tableKey k) with
  | none => .error (.notFound k)
  | some image =>
    if Key.ofImage image = k then (Code.decode image).mapError .image else .error (.mismatch k)

/-- Remove the program under a key, if there is one. -/
def delete (s : ProgramStore) (k : Key) : ProgramStore := ⟨s.table.erase (tableKey k)⟩

/-- The keys of all programs, in order. -/
def list (s : ProgramStore) : List Key :=
  (s.table.keysBetween namespaceStart namespaceStop).map fun entry =>
    Key.ofBytes (entry.drop namespaceStart.length)

end ProgramStore

end RegisterJit
