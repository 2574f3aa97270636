import RegisterJit.Cli.Archive
import RegisterJit.Cli.Command

/-!
# The command line

Everything that touches the outside: the files that a command line names are read before it runs,
and what it printed, logged and stored is written afterwards.
-/

namespace RegisterJit.Cli

/-- The string of a text, for the file system. -/
def pathString (t : Text) : String := (Text.toString? t).getD ""

/-- What stands at a path: the bytes of a file, or a directory. -/
inductive Found
  | file (contents : Text)
  | directory
  | nothing

/-- The code of the system for reading a directory as if it were a file. -/
def directoryCode : UInt32 := 21

/-- Look what stands at a path. -/
def look (path : Text) : IO Found := do
  try
    let bytes ← IO.FS.readBinFile (pathString path)
    return .file bytes.toList
  catch
    | .inappropriateType _ code _ =>
      if code = directoryCode then return .directory else return .nothing
    | _ => return .nothing

/-- Note on a disk what stands at a path. -/
def note (disk : Disk) (path : Text) : IO Disk := do
  let place := Place.ofText path
  match ← look path with
  | .file contents => return { disk with files := (place, contents) :: disk.files }
  | .directory => return { disk with directories := place :: disk.directories }
  | .nothing => return disk

/-- A path without the slashes at its end. -/
def withoutSlashes (path : Text) : Text := (path.reverse.dropWhile (· = 0x2f)).reverse

/-- Note what stands at some paths and on the way along them. -/
def noteAll (disk : Disk) (paths : List Text) : IO Disk :=
  ((paths.flatMap Disk.waypoints).map withoutSlashes).foldlM note disk

/-- The file of a store. -/
def storeFile (path : Text) : Text := path ++ Text.ofString "/programs"

/-- The store that a command line works on, if any. -/
def storePath? (disk : Disk) (args : List Text) : Option Text :=
  match Flags.parse args with
  | .error _ => none
  | .ok (flags, _) =>
    match (Command.configuration flags.config).run ⟨disk, #[], #[]⟩ with
    | .error _ _ => none
    | .ok s _ =>
      let path := (s.withFlags flags).storePath
      if path.isEmpty then none else some path

/-- The files and the store that a command line names. -/
def loadDisk (args : List Text) : IO Disk := do
  let config := match Flags.parse args with
    | .ok (flags, _) => [flags.config]
    | .error _ => []
  let disk ← noteAll (Disk.ofFiles []) (config ++ args)
  match storePath? disk args with
  | none => return disk
  | some path =>
    let disk ← noteAll disk [path]
    match ← look (storeFile path) with
    | .file contents =>
      return { disk with stores := (Place.ofText path, unarchive contents) :: disk.stores }
    | _ => return disk

/-- Write a store back. -/
def saveDisk (disk : Disk) (path : Text) : IO Unit := do
  match disk.stores.lookup (Place.ofText path) with
  | none => return ()
  | some store =>
    IO.FS.createDirAll (pathString path)
    IO.FS.writeBinFile (pathString (storeFile path)) ⟨(archive store).toArray⟩

/-- Print what a command printed. -/
def writeOutput (stream : IO.FS.Stream) : Output → IO Unit
  | .text t => stream.write ⟨t.toArray⟩
  | .code l => stream.write ⟨l.text.toArray⟩

end RegisterJit.Cli

open RegisterJit RegisterJit.Cli in
/-- Run a command line. -/
def main (args : List String) : IO UInt32 := do
  let args := args.map Text.ofString
  let disk ← loadDisk args
  let (report, after) := runCommandLine disk args
  let out ← IO.getStdout
  report.output.forM (writeOutput out)
  out.flush
  let err ← IO.getStderr
  report.log.forM fun line => err.write ⟨(line ++ Text.ofString "\n").toArray⟩
  match storePath? disk args with
  | none => pure ()
  | some path => saveDisk after path
  return report.exit.toUInt32
