import RegisterJit.Store.Programs

/-!
# Stores as text

A store is kept in a file with a line for each entry of its table: the key and the value as
hexadecimal digits with a blank between.
-/

namespace RegisterJit.Cli

/-- The text of a store. -/
def archive (s : ProgramStore) : Text :=
  s.table.flatMap fun (k, v) =>
    Text.hexOfBytes k ++ Text.ofString " " ++ Text.hexOfBytes v ++ Text.ofString "\n"

/-- The entry on a line. -/
def archivedEntry? (line : Text) : Option (Text × Text) :=
  let (k, v) := Text.cut 0x20 line
  match Text.hexBytes k, Text.hexBytes v with
  | .ok k, .ok v => if k.isEmpty then none else some (k, v)
  | _, _ => none

/-- The store in a text. Lines that are no entries are skipped. -/
def unarchive (t : Text) : ProgramStore :=
  ⟨((Text.lines t).filterMap archivedEntry?).foldl (fun table (k, v) => table.insert k v) []⟩

end RegisterJit.Cli
