import RegisterJit.Cli.Flags
import RegisterJit.Machine.State

/-!
# Settings

Settings start from defaults; a configuration file changes some of them
(`RegisterJit.Cli.Configuration`), and flags change the result.
-/

namespace RegisterJit.Cli

/-- How a command runs. -/
structure Settings where
  codeSize : Int
  stackSize : Int
  nativeStackSize : Int
  /-- Print the compiled code before running it. -/
  disassemble : Bool
  /-- Where the program store is; nowhere if empty. -/
  storePath : Text
  /-- Log what is compiled and linked. -/
  verbose : Bool

namespace Settings

/-- The settings without a configuration. -/
def standard : Settings := ⟨16 * 1024 * 1024, 8 * 1024 * 1024, 4 * 1024 * 1024, false, [], false⟩

/-- Change settings as flags say. -/
def withFlags (s : Settings) (f : Flags) : Settings :=
  { codeSize := f.codeSize.getD s.codeSize
    stackSize := f.stackSize.getD s.stackSize
    nativeStackSize := f.nativeStackSize.getD s.nativeStackSize
    disassemble := f.disassemble.getD s.disassemble
    storePath := f.store.getD s.storePath
    verbose := f.verbose.getD s.verbose }

/-- The sizes of a machine. -/
def machineConfig (s : Settings) : MachineConfig := ⟨s.codeSize, s.stackSize, s.nativeStackSize⟩

end Settings

end RegisterJit.Cli
