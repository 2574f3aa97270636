import RegisterJit.Bytecode.Listing
import RegisterJit.Bytecode.Parser
import RegisterJit.Cli.Configuration
import RegisterJit.Cli.Disk
import RegisterJit.Compile.Disassembly
import RegisterJit.Machine.Program
import RegisterJit.Report.Record

/-!
# Commands

A command line is flags, a command and its arguments. A command reads files and stores, prints, and
either succeeds or stops with a message; what was printed and stored before stays.
-/

namespace RegisterJit.Cli

/-- Something that a command prints. -/
inductive Output
  | text (t : Text)
  | code (line : Disassembly.Line)

/-- Why a command stopped. -/
inductive Stop
  | failure (message : Text)
  /-- The command line is no command. -/
  | usage
  /-- The usage was asked for. -/
  | help
  /-- A program broke what everything relies on. -/
  | crash

/-- What a command changes. -/
structure Console where
  disk : Disk
  output : Array Output
  /-- What was logged, a message each. -/
  log : Array Text

/-- A step of a command. -/
abbrev Command := EStateM Stop Console

namespace Command

/-- Stop with a message. -/
def fail {α : Type} (message : Text) : Command α := throw (.failure message)

/-- Print. -/
def print (o : Output) : Command Unit := modify fun c => { c with output := c.output.push o }

/-- Print a text. -/
def printText (t : Text) : Command Unit := print (.text t)

/-- Print a line. -/
def printLine (t : Text) : Command Unit := printText (t ++ Text.ofString "\n")

/-- Log a message. -/
def note (t : Text) : Command Unit := modify fun c => { c with log := c.log.push t }

/-- Log records, if asked to. -/
def record (s : Settings) (rs : List Record) : Command Unit :=
  if s.verbose then rs.forM fun r => note r.line else return ()

/-- Stop as a fault says, with the message put after `place`. -/
def stopAt {α : Type} (place : Text) : Fault → Command α
  | .failure m => fail (place ++ m)
  | .invariant .absentCode | .crash | .exhausted => throw .crash
  | .invariant i => fail (place ++ i.message)
  | .stackOverflow => fail (place ++ Text.ofString "stack overflow")
  | .thrown v m => fail (place ++ exceptionText v m)

/-- Read a file and the program in it. -/
def readProgram (path : Text) : Command Code := do
  match (← get).disk.read path with
  | .error m => fail m
  | .ok contents =>
    match Listing.parse contents with
    | .ok c => return c
    | .error (.build _ .noSuchLabel) => throw .crash
    | .error e => fail (path ++ Text.ofString ": " ++ e.message)

/-! ## Running -/

/-- Print what a run printed. -/
def flush (w : World) : Command Unit :=
  w.output.toList.forM printText

/-- A value as it is shown to the user. -/
def shown (w : World) (v : Value) : Command Text :=
  match (Run.displayWith Run.detached v).run { w with output := #[] } with
  | .ok t w => do
    flush w
    return t
  | .error _ _ => throw .crash

/-- Compile a program on a fresh machine. -/
def load (s : Settings) (c : Code) : Command (World × MachineCode × Image) := do
  let result := (Run.compile c).run (World.ofConfig s.machineConfig)
  let codes := match result with
    | .ok _ w | .error _ w => w.machine.codes.toList
  let session := (Session.start.compile (codes.map fun m => some m.unit)).2
  record s session.records
  match result with
  | .error f _ => stopAt (Text.ofString "compile " ++ c.name ++ Text.ofString ": ") f
  | .ok (id, img) w =>
    record s [session.linkRecord img]
    match w.machine.codes[id]? with
    | some code => return (w, code, img)
    | none => throw .crash

/-- Run a program on a fresh machine and print its result unless it is undefined. -/
def execute (s : Settings) (c : Code) : Command Unit := do
  let (w, code, img) ← load s c
  if s.disassemble then (Disassembly.lines img).forM fun l => print (.code l)
  let this := Heap.value w.realm.globalObject
  match (Run.runProgram code this []).run w with
  | .ok v w =>
    flush w
    if v.isUndefined then return ()
    printLine (← shown w v)
  | .error (.thrown v _) w =>
    flush w
    fail (Text.ofString "uncaught exception: " ++ (← shown w v))
  | .error (.invariant _) w =>
    flush w
    throw .crash
  | .error f w =>
    flush w
    stopAt (Text.ofString "run " ++ c.name ++ Text.ofString ": ") f

/-- The only argument of a command. -/
def onlyFile (command : Text) : List Text → Command Text
  | [path] => return path
  | args => fail (command ++ Text.ofString ": want one file, got " ++ Text.ofNat args.length)

/-- Run the program in a file. -/
def runFile (s : Settings) (args : List Text) : Command Unit := do
  execute s (← readProgram (← onlyFile "run" args))

/-! ## Compiling -/

/-- Compile a program without a machine and place it at zero; messages are put after `place`. -/
def build (s : Settings) (place : Text) (c : Code) : Command Image := do
  let world := World.ofConfig Settings.standard.machineConfig
  match (Run.inspectedUnits 0 false true c).run world with
  | .error f _ => stopAt place f
  | .ok units _ =>
    let (result, session) := Session.start.compile units
    record s session.records
    match result with
    | .error i => stopAt place (.invariant i)
    | .ok _ =>
      match (session.link ⟨0, 0⟩ CodeSpace.allocate).result with
      | .error (.invariant i) => stopAt place (.invariant i)
      | .error e => fail (place ++ e.message)
      | .ok img =>
        record s [session.linkRecord img]
        return img

/-- A file that was compiled. -/
structure Compiled where
  path : Text
  code : Code
  /-- The number of bytes of machine code. -/
  size : Nat

/-- Compile a file. -/
def compileFile (s : Settings) (path : Text) : Command Compiled := do
  let code ← readProgram path
  let img ← build s (path ++ Text.ofString ": ") code
  return ⟨path, code, img.code.size⟩

/-- Open the store at the configured path. -/
def openStore (s : Settings) : Command ProgramStore := do
  match (← get).disk.openStore s.storePath with
  | .error m => fail m
  | .ok (store, disk) =>
    modify fun c => { c with disk := disk }
    return store

/-- Store a program at the configured path. -/
def putProgram (s : Settings) (c : Code) : Command Key := do
  let (k, store) := (← openStore s).put c
  modify fun c => { c with disk := c.disk.saveStore s.storePath store }
  return k

/-- Compile files and store them if there is a store. All are compiled before the first is
reported. -/
def compileFiles (s : Settings) (paths : List Text) : Command Unit := do
  if paths.isEmpty then fail "compile: no files"
  let results ← paths.mapM (compileFile s)
  unless s.storePath.isEmpty do
    let _ ← openStore s
  results.forM fun r => do
    let line := r.path ++ Text.ofString ": " ++ Text.ofNat r.code.walk.length ++
      Text.ofString " programs, " ++ Text.ofNat r.size ++ Text.ofString " bytes"
    if s.storePath.isEmpty then printLine line
    else
      let k ← putProgram s r.code
      printLine (line ++ Text.ofString " " ++ k.text)

/-- Print the listing and the machine code of a file. -/
def disassembleFile (s : Settings) (args : List Text) : Command Unit := do
  let code ← readProgram (← onlyFile "disasm" args)
  let img ← build s [] code
  printLine (Listing.render code)
  (Disassembly.lines img).forM fun l => print (.code l)

/-! ## The store -/

/-- Stop because a program cannot be had. -/
def stopGet {α : Type} (e : GetError) : Command α :=
  match e.message? with
  | some m => fail m
  | none => throw .crash

/-- Print the keys and names of the stored programs; those that cannot be read are skipped. -/
def listStore (store : ProgramStore) : Command Unit :=
  store.list.forM fun k =>
    match store.get k with
    | .ok c => printLine (k.text ++ Text.ofString " " ++ c.name)
    | .error e =>
      match e.message? with
      | some m => note (Text.ofString "Skipping " ++ k.text ++ Text.ofString ": " ++ m)
      | none => throw .crash

/-- The stored program that arguments name. -/
def storedProgram (command : Text) (store : ProgramStore) : List Text → Command Code
  | [t] =>
    match Key.parse t with
    | .error e => fail e.message
    | .ok k =>
      match store.get k with
      | .ok c => return c
      | .error e => stopGet e
  | _ => fail (Text.ofString "store " ++ command ++ Text.ofString ": want one key")

/-- List, show or run stored programs. -/
def useStore (s : Settings) (args : List Text) : Command Unit := do
  if s.storePath.isEmpty then fail "store: no -store path configured"
  match args with
  | [] => fail "store: missing subcommand"
  | command :: rest =>
    let programs ← openStore s
    if command = Text.ofString "list" then listStore programs
    else if command = Text.ofString "show" then
      printText (Listing.render (← storedProgram command programs rest))
    else if command = Text.ofString "run" then
      execute s (← storedProgram command programs rest)
    else fail (Text.ofString "store: unknown subcommand " ++ Text.quote command)

/-! ## Command lines -/

/-- The settings with a configuration file, if one is named. -/
def configuration (path : Text) : Command Settings := do
  if path.isEmpty then return Settings.standard
  let problem := Text.ofString "Failed to load config: "
  match (← get).disk.read path with
  | .error m => fail (problem ++ Text.ofString "read config: " ++ m)
  | .ok contents =>
    match Settings.standard.configured contents with
    | .ok s => return s
    | .error .unnamed => throw .crash
    | .error e =>
      fail (problem ++ Text.ofString "parse config " ++ path ++ Text.ofString ": " ++ e.message)

/-- Do what a command line says. -/
def dispatch (args : List Text) : Command Unit := do
  match Flags.parse args with
  | .error .help => throw .help
  | .error .malformed => throw .usage
  | .ok (flags, rest) =>
    let s := (← configuration flags.config).withFlags flags
    match rest with
    | [] => throw .usage
    | command :: args =>
      if command = Text.ofString "run" then runFile s args
      else if command = Text.ofString "compile" then compileFiles s args
      else if command = Text.ofString "disasm" then disassembleFile s args
      else if command = Text.ofString "store" then useStore s args
      else throw .usage

end Command

/-- What a command line leaves. -/
structure Report where
  /-- The exit status. -/
  exit : Nat
  output : List Output
  /-- The messages for the user, each as it is written. -/
  log : List Text

/-- What messages begin with. -/
def logLead : Text := "jsjit: "

/-- Run a command line. -/
def runCommandLine (disk : Disk) (args : List Text) : Report × Disk :=
  let report (exit : Nat) (last : List Text) (c : Console) : Report × Disk :=
    (⟨exit, c.output.toList, (c.log.toList ++ last).map (logLead ++ ·)⟩, c.disk)
  match (Command.dispatch args).run ⟨disk, #[], #[]⟩ with
  | .ok _ c => report 0 [] c
  | .error (.failure m) c => report 1 [m] c
  | .error .help c => report 0 [] c
  | .error .usage c => report 2 [] c
  | .error .crash c => report 2 [] c

end RegisterJit.Cli
