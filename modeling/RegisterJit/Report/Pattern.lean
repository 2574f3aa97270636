import RegisterJit.Report.Field

/-!
# Message patterns

A pattern is a text with directives in it. A directive starts with `%` and ends with a verb, the
letter that says how an argument is written: `%s` a text, `%d` an integer, `%v` either, `%x` its
hexadecimal digits, and so on; `%%` is a percent sign. Between the two stand flags, a width and a
precision, each number either written out or taken from an argument (`*`), and the arguments may be
picked by number (`[2]`). Patterns and arguments that do not fit together still give a message: it
shows what was missing, left over or of the wrong kind.

A directive is read first, without looking at the arguments; `Text.fill` then goes through the
pattern with the arguments at hand.
-/

namespace RegisterJit

/-- An argument of a pattern. -/
inductive Argument
  | text (t : Text)
  | integer (i : Int)

namespace Argument

/-- The name of an argument's kind. -/
def kind : Argument → Text
  | .text _ => "string"
  | .integer _ => "int64"

/-- An integer written as its verb says; `none` if the verb is not one of integers. -/
def writeInteger? (f : Field) (verb : Char) (i : Int) : Option Text :=
  match verb with
  | 'v' | 'd' => some (f.integer .lower [] 10 i)
  | 'b' => some (f.integer .lower [] 2 i)
  | 'o' => some (f.integer .lower [] 8 i)
  | 'O' => some (f.integer .lower [0x30, 0x6f] 8 i)
  | 'x' => some (f.integer .lower [] 16 i)
  | 'X' => some (f.integer .upper [] 16 i)
  | 'c' => some (f.character i)
  | 'q' => some (f.quotedCharacter i)
  | 'U' => some (f.codePoint i)
  | _ => none

/-- A text written as its verb says; `none` if the verb is not one of texts. -/
def writeText? (f : Field) (verb : Char) (t : Text) : Option Text :=
  match verb with
  | 'v' => some (if f.literal then f.quoted t else f.plain t)
  | 's' => some (f.plain t)
  | 'x' => some (f.hexBytes .lower t)
  | 'X' => some (f.hexBytes .upper t)
  | 'q' => some (f.quoted t)
  | _ => none

/-- An argument written as a verb says; `none` if the verb does not fit it. The verb `T` writes the
kind of any argument. -/
def write? (f : Field) (verb : Char) (a : Argument) : Option Text :=
  if verb = 'T' then some (f.plain a.kind)
  else
    match a with
    | .text t => writeText? f verb t
    | .integer i => writeInteger? f verb i

/-- An argument with its kind. -/
def described (f : Field) (a : Argument) : Text :=
  a.kind ++ [0x3d] ++ (a.write? f 'v').getD []

/-- The note about arguments that no directive used. -/
def leftOver : List Argument → Text
  | [] => []
  | args =>
    Text.ofString "%!(EXTRA " ++ Text.join ", " (args.map (described {})) ++ Text.ofString ")"

/-- The integer that an argument gives for a width or precision: those beyond a million count as
none. -/
def extent? : Argument → Option Int
  | .text _ => none
  | .integer i => if i.natAbs ≤ 1000000 then some i else none

end Argument

/-- Which argument a directive asks for. -/
inductive Selector
  /-- The one after the last. -/
  | next
  /-- The one with a number, counted from one. -/
  | number (n : Nat)
  /-- A bracket that holds no number. -/
  | malformed

/-- A width or precision as it stands in a directive. -/
inductive Extent
  | unset
  | fixed (n : Nat)
  /-- The next argument. -/
  | argument

/-- What stands between `%` and the end of its verb. -/
structure Directive where
  flags : Field
  /-- The bracket before the width. -/
  first : Selector
  width : Extent
  /-- What follows the point: a bracket and the precision. -/
  precision? : Option (Selector × Extent)
  /-- The bracket before the verb. -/
  last : Selector
  /-- The verb, missing if the pattern ends here. -/
  verb? : Option Nat

namespace Directive

/-- The flag that a byte stands for, set in a field. -/
def setFlag? (f : Field) (b : UInt8) : Option Field :=
  match b with
  | 0x23 => some { f with marked := true }
  | 0x30 => some { f with zeroFilled := true }
  | 0x2b => some { f with signed := true }
  | 0x2d => some { f with leftAligned := true }
  | 0x20 => some { f with spaced := true }
  | _ => none

/-- Read flags. -/
def readFlags (f : Field) : Text → Field × Text
  | [] => (f, [])
  | b :: rest =>
    match setFlag? f b with
    | some f => readFlags f rest
    | none => (f, b :: rest)

/-- Read a number after `sofar`. One that goes beyond a million with digits left spoils the rest of
the pattern. -/
def readNumber (sofar : Option Nat) : Text → Option Nat × Text
  | [] => (sofar, [])
  | b :: rest =>
    if Text.isDigit b then
      if 1000000 < sofar.getD 0 then (none, [])
      else readNumber (some (sofar.getD 0 * 10 + Text.digitValue b)) rest
    else (sofar, b :: rest)

/-- Read a bracket with the number of an argument. Without a closing bracket only the opening one is
read. -/
def readSelector : Text → Selector × Text
  | 0x5b :: rest =>
    if rest.contains 0x5d && 2 ≤ rest.length then
      let (inside, after) := Text.cut 0x5d rest
      match readNumber none inside with
      | (some n, []) => (.number n, after)
      | _ => (.malformed, after)
    else (.malformed, rest)
  | t => (.next, t)

/-- Read a width or precision. -/
def readExtent : Text → Extent × Text
  | 0x2a :: rest => (.argument, rest)
  | t =>
    match readNumber none t with
    | (some n, rest) => (.fixed n, rest)
    | (none, rest) => (.unset, rest)

/-- Read a point with the precision after it. -/
def readPrecision : Text → Option (Selector × Extent) × Text
  | 0x2e :: rest =>
    let (selector, rest) := readSelector rest
    let (extent, rest) := readExtent rest
    (some (selector, extent), rest)
  | t => (none, t)

/-- Read a verb: one character. -/
def readVerb : Text → Option Nat × Text
  | [] => (none, [])
  | b :: rest =>
    let (scalar?, rest) := Text.readChar b rest
    (some (scalar?.getD Text.replacement), rest)

/-- Whether a bracket picks an argument that no number or point may follow: the number of an
argument belongs right before what uses it. -/
def isDangling : Selector → Extent → Bool
  | .number _, .unset | .number _, .fixed _ => true
  | _, _ => false

/-- Read a directive after its `%`. The bracket before the verb is looked for unless one is pending
already. -/
def read (t : Text) : Directive × Text :=
  let (flags, t) := readFlags {} t
  let (first, t) := readSelector t
  let (width, t) := readExtent t
  let (precision?, t) := readPrecision t
  let pending :=
    match precision? with
    | none => isDangling first width
    | some (selector, extent) => isDangling selector extent
  let (last, t) := if pending then (.next, t) else readSelector t
  let (verb?, t) := readVerb t
  ({ flags, first, width, precision?, last, verb? }, t)

theorem length_readFlags_le (f : Field) (t : Text) : (readFlags f t).2.length ≤ t.length := by
  induction t generalizing f with
  | nil => simp [readFlags]
  | cons b rest ih =>
    unfold readFlags
    split
    · exact Nat.le_succ_of_le (ih _)
    · simp

theorem length_readNumber_le (n : Option Nat) (t : Text) :
    (readNumber n t).2.length ≤ t.length := by
  induction t generalizing n with
  | nil => simp [readNumber]
  | cons b rest ih =>
    unfold readNumber
    split
    · split
      · simp
      · exact Nat.le_succ_of_le (ih _)
    · simp

theorem length_cut_le (sep : UInt8) (t : Text) : (Text.cut sep t).2.length ≤ t.length := by
  induction t with
  | nil => simp [Text.cut]
  | cons b rest ih =>
    unfold Text.cut
    split
    · simp
    · exact Nat.le_succ_of_le ih

theorem length_readSelector_le (t : Text) : (readSelector t).2.length ≤ t.length := by
  unfold readSelector
  split
  · rename_i rest
    split
    · have := length_cut_le 0x5d rest
      dsimp only
      split <;> simp only [List.length_cons] <;> omega
    · simp
  · simp

theorem length_readExtent_le (t : Text) : (readExtent t).2.length ≤ t.length := by
  unfold readExtent
  split
  · simp
  · have := length_readNumber_le none t
    split <;> simp_all

theorem length_readPrecision_le (t : Text) : (readPrecision t).2.length ≤ t.length := by
  unfold readPrecision
  split
  · rename_i rest
    have h1 := length_readSelector_le rest
    have h2 := length_readExtent_le (readSelector rest).2
    simp only [List.length_cons]
    omega
  · simp

theorem length_readVerb_le (t : Text) : (readVerb t).2.length ≤ t.length := by
  unfold readVerb
  split
  · simp
  · rename_i b rest
    have := Text.length_readChar_le b rest
    simp only [List.length_cons]
    omega

/-- A directive is part of the text it is read from. -/
theorem length_read_le (t : Text) : (read t).2.length ≤ t.length := by
  have h1 := length_readFlags_le {} t
  have h2 := length_readSelector_le (readFlags {} t).2
  have h3 := length_readExtent_le (readSelector (readFlags {} t).2).2
  have h4 := length_readPrecision_le (readExtent (readSelector (readFlags {} t).2).2).2
  have h5 := length_readSelector_le
    (readPrecision (readExtent (readSelector (readFlags {} t).2).2).2).2
  unfold read
  dsimp only
  split
  all_goals
    refine Nat.le_trans (length_readVerb_le _) ?_
    split
    · show (readPrecision _).2.length ≤ _
      omega
    · exact Nat.le_trans h5 (by omega)

end Directive

/-- Where a message has got to among its arguments. -/
structure Cursor where
  /-- The next argument. -/
  next : Nat := 0
  /-- Whether arguments were picked by number, so that unused ones are no fault. -/
  picked : Bool := false
  /-- Whether the directive at hand picked an argument that is not there. -/
  astray : Bool := false

namespace Cursor

/-- Move to the argument that a bracket picks among `count`. -/
def select (c : Cursor) (count : Nat) : Selector → Cursor
  | .next => c
  | .malformed => { c with picked := true, astray := true }
  | .number n =>
    if 1 ≤ n ∧ n ≤ count then { c with next := n - 1, picked := true }
    else { c with picked := true, astray := true }

/-- Note that a directive cannot be followed, if `b`. -/
def straysIf (c : Cursor) (b : Bool) : Cursor := { c with astray := c.astray || b }

end Cursor

namespace Directive

/-- Settle the width: the message so far of this directive, the field and the cursor. A negative
width from an argument aligns to the left. -/
def settleWidth (d : Directive) (args : List Argument) (c : Cursor) : Text × Field × Cursor :=
  match d.width with
  | .unset => ([], d.flags, c)
  | .fixed n => ([], { d.flags with width := n }, c.straysIf (isDangling d.first d.width))
  | .argument =>
    match args[c.next]? with
    | none => ("%!(BADWIDTH)", d.flags, c)
    | some a =>
      let c := { c with next := c.next + 1 }
      match a.extent? with
      | none => ("%!(BADWIDTH)", d.flags, c)
      | some i =>
        if i < 0 then
          ([], { d.flags with width := i.natAbs, leftAligned := true, zeroFilled := false }, c)
        else ([], { d.flags with width := i.natAbs }, c)

/-- Settle the precision. A point without a number asks for precision zero. -/
def settlePrecision (d : Directive) (args : List Argument) (f : Field) (c : Cursor) :
    Text × Field × Cursor :=
  match d.precision? with
  | none => ([], f, c)
  | some (selector, extent) =>
    let c := (c.straysIf (isDangling d.first d.width)).select args.length selector
    match extent with
    | .unset => ([], { f with precision? := some 0 }, c)
    | .fixed n => ([], { f with precision? := some n }, c)
    | .argument =>
      match args[c.next]? with
      | none => ("%!(BADPREC)", f, c)
      | some a =>
        let c := { c with next := c.next + 1 }
        match a.extent? with
        | some (.ofNat n) => ([], { f with precision? := some n }, c)
        | _ => ("%!(BADPREC)", f, c)

/-- The field as a verb takes it: `v` writes marked texts as source texts have them, and no signs.
-/
def fieldAt (verb : Char) (f : Field) : Field :=
  if verb = 'v' ∨ verb = 'w' then { f with literal := f.marked, marked := false, signed := false }
  else f

/-- A verb with a note about it. -/
def complaint (verb : Nat) (note : Text) : Text :=
  Text.ofString "%!" ++ Text.encodeChar verb ++ [0x28] ++ note ++ [0x29]

/-- What a verb writes, and where that leaves the cursor. -/
def writeVerb (verb : Nat) (args : List Argument) (f : Field) (c : Cursor) : Text × Cursor :=
  if verb = 0x25 then ([0x25], c)
  else if c.astray then (complaint verb "BADINDEX", c)
  else
    match args[c.next]? with
    | none => (complaint verb "MISSING", c)
    | some a =>
      let v := Char.ofNat verb
      let f := fieldAt v f
      let c := { c with next := c.next + 1 }
      ((a.write? f v).getD (complaint verb (a.described f)), c)

/-- What a directive writes, and where that leaves the cursor. -/
def write (d : Directive) (args : List Argument) (c : Cursor) : Text × Cursor :=
  let c := { c with astray := false }.select args.length d.first
  let (note₁, f, c) := d.settleWidth args c
  let (note₂, f, c) := d.settlePrecision args f c
  let c := c.select args.length d.last
  match d.verb? with
  | none => (note₁ ++ note₂ ++ Text.ofString "%!(NOVERB)", c)
  | some verb =>
    let (written, c) := writeVerb verb args f c
    (note₁ ++ note₂ ++ written, c)

end Directive

/-- Fill arguments into the rest of a pattern. -/
def Text.fillFrom (args : List Argument) (c : Cursor) : Text → Text
  | [] => if c.picked then [] else Argument.leftOver (args.drop c.next)
  | b :: rest =>
    if b = 0x25 then
      let read := Directive.read rest
      let (written, c) := read.1.write args c
      written ++ fillFrom args c read.2
    else b :: fillFrom args c rest
termination_by t => t.length
decreasing_by
  · have := Directive.length_read_le rest
    simp only [List.length_cons]
    omega
  · simp

/-- Fill arguments into a pattern. -/
def Text.fill (pattern : Text) (args : List Argument) : Text := pattern.fillFrom args {}

end RegisterJit
