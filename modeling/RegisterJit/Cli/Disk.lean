import RegisterJit.Cli.Place
import RegisterJit.Store.Programs
import RegisterJit.Text.Quote

/-!
# Files and stores

What commands find on disk: files with their contents, directories, and the program stores that
earlier commands left. A store is a directory; the directories on the way to a file or a store exist
as well. A path is followed step by step, and every step but the last must lead to a directory.
-/

namespace RegisterJit.Cli

/-- Why a path leads nowhere. -/
inductive PathFault
  | missing
  | notDirectory
  | nameTooLong
  /-- Something is there already. -/
  | taken
  /-- The path has a zero byte. -/
  | invalid

namespace PathFault

/-- The wording of a fault. -/
def message : PathFault → Text
  | .missing => "no such file or directory"
  | .notDirectory => "not a directory"
  | .nameTooLong => "file name too long"
  | .taken => "file exists"
  | .invalid => "invalid argument"

/-- A fault with what was tried, and on which path. -/
def during (f : PathFault) (verb path : Text) : Text :=
  verb ++ Text.ofString " " ++ path ++ Text.ofString ": " ++ f.message

end PathFault

/-- Files, directories, and stores by their directories. -/
structure Disk where
  files : List (Place × Text)
  directories : List Place
  stores : List (Place × ProgramStore)

namespace Disk

/-- A disk with files below the current directory. -/
def ofFiles (files : List (Text × Text)) : Disk :=
  ⟨files.map fun (name, contents) => (Place.ofText name, contents), [], []⟩

/-- The contents of the file at a place. -/
def file? (d : Disk) (p : Place) : Option Text := d.files.lookup p

/-- Whether a place is a directory: an origin, one that was made, or on the way to something. -/
def isDirectory (d : Disk) (p : Place) : Bool :=
  p.steps.isEmpty || d.directories.any p.leadsTo || d.stores.any (fun (q, _) => p.leadsTo q) ||
    d.files.any fun (q, _) => p.leadsTo q && p ≠ q

/-- The longest name. -/
def maxName : Nat := 255

/-- The longest path. -/
def maxPath : Nat := 4095

/-- Take a step from a place. -/
def enter (d : Disk) (p : Place) (name : Text) : Except PathFault Place :=
  if (d.file? p).isSome then .error .notDirectory
  else if maxName < name.length then .error .nameTooLong
  else
    let q := p.step name
    if (d.file? q).isSome || d.isDirectory q then .ok q else .error .missing

/-- Take steps from a place. -/
def follow (d : Disk) (p : Place) (names : List Text) : Except PathFault Place :=
  names.foldlM d.enter p

/-- Refuse paths that have a zero byte or are too long. -/
def checkPath (path : Text) : Except PathFault Unit :=
  if path.contains 0 then .error .invalid
  else if maxPath < path.length then .error .nameTooLong
  else .ok ()

/-- The place that a path leads to. A slash at its end asks for a directory. -/
def find (d : Disk) (path : Text) : Except PathFault Place := do
  if path.isEmpty then throw .missing
  checkPath path
  let p ← d.follow (Place.start path) (Place.stepsOf path)
  if path.getLast? = some 0x2f && (d.file? p).isSome then throw .notDirectory
  return p

/-- The contents of a file, or why there are none. -/
def read (d : Disk) (path : Text) : Except Text Text :=
  match d.find path with
  | .error f => .error (f.during "open" path)
  | .ok p =>
    match d.file? p with
    | some contents => .ok contents
    | none => .error (Text.ofString "read " ++ path ++ Text.ofString ": is a directory")

/-- Make a directory in one that exists. -/
def makeDirectory (d : Disk) (path : Text) : Except PathFault Disk := do
  checkPath path
  let steps := Place.stepsOf path
  let parent ← d.follow (Place.start path) steps.dropLast
  match steps.getLast? with
  | none => throw .taken
  | some name =>
    if name = Text.ofString "." ∨ name = Text.ofString ".." then throw .taken
    match d.enter parent name with
    | .ok _ => throw .taken
    | .error .missing => return { d with directories := parent.down name :: d.directories }
    | .error f => throw f

/-- Make a directory unless the path leads to one already. -/
def ensureDirectory (d : Disk) (path : Text) : Except Text Disk :=
  match d.makeDirectory path with
  | .ok d => .ok d
  | .error f =>
    match d.find path with
    | .ok p => if d.isDirectory p then .ok d else .error (f.during "mkdir" path)
    | .error _ => .error (f.during "mkdir" path)

/-- The paths on the way along a path, each with the slashes after its last name: the path itself
comes first. -/
def waypoints (path : Text) : List Text :=
  ((List.range path.length).filter fun i =>
    i + 1 = path.length || (path[i]? = some 0x2f && path[i + 1]? ≠ some 0x2f)).reverse.map
      fun i => path.take (i + 1)

/-- Make a directory and those on the way to it. What is found first along the way, from the end of
the path on, must be a directory. -/
def makeDirectories (d : Disk) (path : Text) : Except Text Disk :=
  let absent (t : Text) : Bool := !(d.find t).isOk
  let ways := waypoints path
  let make := (ways.takeWhile absent).reverse.foldlM ensureDirectory d
  match ways.dropWhile absent with
  | [] => make
  | found :: _ =>
    match d.find found with
    | .ok p =>
      if d.isDirectory p then make else .error (PathFault.notDirectory.during "mkdir" found)
    | .error _ => make

/-- The store at a path; an absent one is created empty. -/
def openStore (d : Disk) (path : Text) : Except Text (ProgramStore × Disk) :=
  let fault (m : Text) : Except Text (ProgramStore × Disk) :=
    .error (Text.ofString "open program store " ++ path ++
      Text.ofString ": error opening database at " ++ Text.quote path ++ Text.ofString ": " ++ m)
  match d.makeDirectories path with
  | .error m => fault m
  | .ok d =>
    match d.find path with
    | .error f => fault (f.during "open" path)
    | .ok p =>
      match d.stores.lookup p with
      | some s => .ok (s, d)
      | none => .ok (.empty, { d with stores := (p, .empty) :: d.stores })

/-- Put a store back. -/
def saveStore (d : Disk) (path : Text) (s : ProgramStore) : Disk :=
  match d.find path with
  | .error _ => d
  | .ok p => { d with stores := (p, s) :: d.stores.filter fun (q, _) => q ≠ p }

end Disk

end RegisterJit.Cli
