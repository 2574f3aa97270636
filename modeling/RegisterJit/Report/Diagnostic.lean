import RegisterJit.Report.Pattern

/-!
# Diagnostics

A diagnostic is a message, possibly around another diagnostic. Some diagnostics report a violation:
the producer of a program broke a rule that the compiler relies on. A violation is found through any
number of contexts around it, but not inside a collection of several diagnostics.
-/

namespace RegisterJit

/-- What went wrong. -/
inductive Diagnostic
  | plain (message : Text)
  /-- A rule was broken. -/
  | violation (message : Text)
  /-- A rule was broken because of something else. -/
  | violationBy (message : Text) (cause : Diagnostic)
  /-- A cause with what was being done. -/
  | context (message : Text) (cause : Diagnostic)
  /-- What was being done, without a cause. -/
  | emptyContext (message : Text)
  /-- A collection of one. -/
  | one (item : Diagnostic)
  /-- A collection of two. -/
  | two (first second : Diagnostic)

namespace Diagnostic

/-- The wording of a diagnostic. -/
def message : Diagnostic → Text
  | .plain m | .violation m => m
  | .violationBy m cause | .context m cause => m ++ Text.ofString ": " ++ cause.message
  | .emptyContext m => m ++ Text.ofString ": %!w(<nil>)"
  | .one item => item.message
  | .two first second => first.message ++ Text.ofString "\n" ++ second.message

/-- The cause of a diagnostic. Collections have no single cause. -/
def cause? : Diagnostic → Option Diagnostic
  | .violationBy _ cause | .context _ cause => some cause
  | _ => none

/-- Whether a diagnostic is itself a violation. -/
def isViolation : Diagnostic → Bool
  | .violation _ | .violationBy _ _ => true
  | _ => false

/-- Whether there is a violation among a diagnostic, its cause, the cause of that, and so on. -/
def reportsViolation : Diagnostic → Bool
  | .violation _ | .violationBy _ _ => true
  | .context _ cause => cause.reportsViolation
  | _ => false

/-- A violation with the message of a filled pattern. -/
def violated (pattern : Text) (args : List Argument) : Diagnostic := .violation (pattern.fill args)

/-- Make a violation of what went wrong, if anything did. -/
def asViolation (message : Text) : Option Diagnostic → Diagnostic
  | none => .violation message
  | some cause => .violationBy message cause

/-- Say what was being done when something went wrong. -/
def inContext (message : Text) : Option Diagnostic → Diagnostic
  | none => .emptyContext message
  | some cause => .context message cause

/-- Collect what went wrong with another message. -/
def also (message : Text) : Option Diagnostic → Diagnostic
  | none => .one (.plain message)
  | some first => .two first (.plain message)

/-- The diagnostic that an abandoned computation leaves when it stopped with `d`: a violation is
returned, everything else goes on to whoever is outside. -/
def recovered? (d : Option Diagnostic) : Option Diagnostic := d.filter isViolation

end Diagnostic

end RegisterJit
