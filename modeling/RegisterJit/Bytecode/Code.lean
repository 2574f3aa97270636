import RegisterJit.Bytecode.Word
import RegisterJit.Number.Layout
import RegisterJit.Text.Quote

/-!
# Programs

A program is a tree of codes, one for the script and one for each nested function. A code holds its
instruction words and the tables that operands refer to. Kinds of constants and handlers are octets,
of which only some have a meaning; a nested code may be absent.

Everything else starts from this type: texts and images are two ways to write it, validation says
which codes the compiler may be given, and sessions compile the codes of a tree in the order of
`walk`. Equality of constants is by bits except for numbers, which are compared as numbers;
`Proofs.Literals` says what follows for tables of constants.
-/

namespace RegisterJit

/-- A literal as its producer wrote it. -/
structure Constant where
  kind : UInt8
  number : Double
  text : Text
  deriving DecidableEq, Inhabited

namespace Constant

/-- The tag of numbers. -/
def kindNumber : UInt8 := 0

/-- The tag of strings. -/
def kindString : UInt8 := 1

/-- The tag of undefined. -/
def kindUndefined : UInt8 := 2

/-- The tag of null. -/
def kindNull : UInt8 := 3

/-- The tag of truth values. -/
def kindBool : UInt8 := 4

/-- A number. -/
def ofNumber (x : Double) : Constant := ⟨kindNumber, x, []⟩

/-- A string. -/
def ofText (t : Text) : Constant := ⟨kindString, Double.zero, t⟩

/-- A truth value, kept as one or zero. -/
def ofBool (b : Bool) : Constant := ⟨kindBool, if b then Double.one else Double.zero, []⟩

/-- The constant undefined. -/
def undefined : Constant := ⟨kindUndefined, Double.zero, []⟩

/-- The constant null. -/
def null : Constant := ⟨kindNull, Double.zero, []⟩

/-- Whether two literals share a place in a table: numbers are compared as numbers, so the zeros
are the same and no NaN is the same as any. -/
def same (a b : Constant) : Bool := a.kind == b.kind && a.number.eq b.number && a.text == b.text

/-- How a literal is written. -/
def render (c : Constant) : Text :=
  if c.kind = kindNumber then c.number.literalText
  else if c.kind = kindString then Text.quote c.text
  else if c.kind = kindNull then "null"
  else if c.kind = kindBool then if c.number.eq Double.zero then "false" else "true"
  else "undefined"

end Constant

/-- A region whose exceptions are handled: it covers the words from `start` up to `stop`, and the
handling code begins at `stop`. -/
structure Handler where
  kind : UInt8
  start : UInt32
  stop : UInt32
  /-- How many environments above the function's own are in force on entry. -/
  level : UInt32
  /-- For a finally block, where the resume address or the thrown value goes. -/
  jump : Register
  /-- For a finally block, where the kind of completion goes. -/
  flag : Register
  deriving DecidableEq, Inhabited

namespace Handler

/-- The tag of catch handlers. -/
def kindCatch : UInt8 := 0

/-- The tag of finally handlers. -/
def kindFinally : UInt8 := 1

/-- The word for a kind of handler. -/
def kindName (k : UInt8) : Text := if k = kindFinally then "finally" else "catch"

end Handler

/-- One script or function body. -/
structure Code where
  name : Text
  data : Array Word
  constants : Array Constant
  names : Array Text
  codes : List (Option Code)
  handlers : Array Handler
  params : UInt32
  registerCount : UInt32
  strict : Bool

namespace Code

/-- A code with nothing in it but a name. -/
def ofName (name : Text) : Code := ⟨name, #[], #[], #[], [], #[], 0, 0, false⟩

instance : Inhabited Code := ⟨ofName []⟩

mutual

/-- The code and all nested codes, parents first; `none` marks an absent one. -/
def walk : Code → List (Option Code)
  | c@⟨_, _, _, _, codes, _, _, _, _⟩ => some c :: walkAll codes

/-- The codes of a list of trees, in order. -/
def walkAll : List (Option Code) → List (Option Code)
  | [] => []
  | none :: rest => none :: walkAll rest
  | some c :: rest => walk c ++ walkAll rest

end

/-- All codes of a tree, if none is absent. -/
def walk? (c : Code) : Option (List Code) := c.walk.mapM id

end Code

end RegisterJit
