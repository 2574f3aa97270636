import RegisterJit.Number.Numeral

/-!
# Command-line flags

Flags come before the command. A flag is written with one or two dashes; its value follows after `=`
or as the next argument, and a switch needs none. The first argument that is no flag, or `--`, ends
them. A flag that is given twice has its last value.
-/

namespace RegisterJit.Cli

/-- The flags that were given. -/
structure Flags where
  /-- The configuration file, none if empty. -/
  config : Text
  codeSize : Option Int
  stackSize : Option Int
  nativeStackSize : Option Int
  disassemble : Option Bool
  store : Option Text
  verbose : Option Bool

namespace Flags

/-- No flags. -/
def unset : Flags := ⟨[], none, none, none, none, none, none⟩

/-- Why flags cannot be read. -/
inductive Fault
  /-- The usage was asked for. -/
  | help
  | malformed
  deriving DecidableEq

/-- The value of a switch. -/
def switchValue (t : Text) : Except Fault Bool :=
  if ["1", "t", "T", "true", "TRUE", "True"].any (Text.ofString · == t) then .ok true
  else if ["0", "f", "F", "false", "FALSE", "False"].any (Text.ofString · == t) then .ok false
  else .error .malformed

/-- The value of a size. -/
def sizeValue (t : Text) : Except Fault Int := (Numeral.signed t).mapError fun _ => .malformed

/-- What a flag takes. -/
inductive Setter
  /-- A value is needed. -/
  | value (set : Text → Flags → Except Fault Flags)
  /-- A value may be left out. -/
  | switch (set : Bool → Flags → Flags)

/-- A size. -/
def sizeSetter (set : Int → Flags → Flags) : Setter :=
  .value fun t f => (sizeValue t).map fun n => set n f

/-- The flag with a name. -/
def setter? (name : Text) : Option Setter :=
  List.lookup name
    [(Text.ofString "config", .value fun t f => .ok { f with config := t }),
      (Text.ofString "code-size", sizeSetter fun n f => { f with codeSize := some n }),
      (Text.ofString "stack-size", sizeSetter fun n f => { f with stackSize := some n }),
      (Text.ofString "native-stack-size",
        sizeSetter fun n f => { f with nativeStackSize := some n }),
      (Text.ofString "disasm", .switch fun b f => { f with disassemble := some b }),
      (Text.ofString "store", .value fun t f => .ok { f with store := some t }),
      (Text.ofString "v", .switch fun b f => { f with verbose := some b })]

/-- The name and the value of a flag without its dashes; an equals sign in front is part of the
name. -/
def splitValue : Text → Text × Option Text
  | [] => ([], none)
  | first :: rest =>
    let name := rest.takeWhile (· ≠ 0x3d)
    (first :: name, if rest.contains 0x3d then some (rest.drop (name.length + 1)) else none)

/-- An argument as a flag. -/
inductive Shape
  | flag (name : Text) (value : Option Text)
  /-- The end of the flags. -/
  | stop
  /-- No flag: the flags ended before it. -/
  | other
  | malformed

/-- Tell flags from other arguments. -/
def shape : Text → Shape
  | 0x2d :: 0x2d :: [] => .stop
  | 0x2d :: 0x2d :: name => named name
  | 0x2d :: c :: name => named (c :: name)
  | _ => .other
where
  /-- A flag without its dashes. -/
  named : Text → Shape
    | [] => .malformed
    | c :: rest =>
      if c = 0x2d ∨ c = 0x3d then .malformed
      else
        let (name, value) := splitValue (c :: rest)
        .flag name value

/-- Set a flag. The value may be the next argument, which is then consumed. -/
def apply (f : Flags) (name : Text) (value : Option Text) (args : List Text) :
    Except Fault (Flags × List Text) :=
  match setter? name with
  | none =>
    .error (if name = Text.ofString "help" ∨ name = Text.ofString "h" then .help else .malformed)
  | some (.switch set) =>
    match value with
    | none => .ok (set true f, args)
    | some t => (switchValue t).map fun b => (set b f, args)
  | some (.value set) =>
    match value, args with
    | some t, args => (set t f).map fun f => (f, args)
    | none, t :: args => (set t f).map fun f => (f, args)
    | none, [] => .error .malformed

/-- Read flags; every flag takes at least one argument, so as many steps as arguments are enough. -/
def parseFrom : (fuel : Nat) → Flags → List Text → Except Fault (Flags × List Text)
  | 0, f, args => .ok (f, args)
  | _, f, [] => .ok (f, [])
  | fuel + 1, f, arg :: args =>
    match shape arg with
    | .other => .ok (f, arg :: args)
    | .stop => .ok (f, args)
    | .malformed => .error .malformed
    | .flag name value => do
      let (f, args) ← f.apply name value args
      parseFrom fuel f args

/-- The flags of a command line and what follows them. -/
def parse (args : List Text) : Except Fault (Flags × List Text) :=
  parseFrom args.length unset args

end Flags

end RegisterJit.Cli
