import RegisterJit.Number.Literal
import RegisterJit.Text.Base64
import RegisterJit.Yaml.Timestamp

/-!
# What scalars denote

A plain scalar may denote nothing, a truth value, a number or a time; every other text is a string.
A tag says what a scalar has to be.
-/

namespace RegisterJit.Yaml

/-- What a scalar denotes. -/
inductive Scalar
  | null
  | bool (b : Bool)
  | integer (i : Int)
  | number (x : Double)
  /-- A time, as it is written. -/
  | timestamp (t : Text)
  | text (t : Text)

namespace Scalar

/-- The tag of a scalar. -/
def tag : Scalar → Text
  | .null => "!!null"
  | .bool _ => "!!bool"
  | .integer _ => "!!int"
  | .number _ => "!!float"
  | .timestamp _ => "!!timestamp"
  | .text _ => "!!str"

/-- The text of a string, and nothing for other scalars. -/
def text? : Scalar → Option Text
  | .text t => some t
  | _ => none

/-- Whether two scalars are equal. A number that is no number differs from itself. -/
def same : Scalar → Scalar → Bool
  | .null, .null => true
  | .bool a, .bool b => a = b
  | .integer a, .integer b => a = b
  | .number a, .number b => Double.eq a b
  | .timestamp a, .timestamp b => a = b
  | .text a, .text b => a = b
  | _, _ => false

/-! ## Plain scalars -/

/-- Spellings of a scalar. -/
def spelled (s : Scalar) (spellings : List String) : List (Text × Scalar) :=
  spellings.map fun w => (Text.ofString w, s)

/-- Words with a meaning of their own. -/
def words : List (Text × Scalar) :=
  [spelled .null ["", "~", "null", "Null", "NULL"],
    spelled (.bool true) ["true", "True", "TRUE"],
    spelled (.bool false) ["false", "False", "FALSE"],
    spelled (.number Double.nan) [".nan", ".NaN", ".NAN"],
    spelled (.number Double.infinity) [".inf", ".Inf", ".INF", "+.inf", "+.Inf", "+.INF"],
    spelled (.number (Double.signedInfinity true)) ["-.inf", "-.Inf", "-.INF"]].flatten

/-- Without the leading digits; whether there were any is the first part. -/
def dropDigits (t : Text) : Bool × Text := (t.head?.any Text.isDigit, t.dropWhile Text.isDigit)

/-- Without a leading sign. -/
def dropSign (t : Text) : Text :=
  if t.head? == some 0x2b || t.head? == some 0x2d then t.drop 1 else t

/-- Whether a text is a sign, digits with an optional point, and an optional exponent. -/
def isDecimal (t : Text) : Bool :=
  let (whole, rest) := dropDigits (dropSign t)
  let (digits, rest) := match rest with
    | 0x2e :: r =>
      let (fraction, r) := dropDigits r
      (whole || fraction, r)
    | r => (whole, r)
  digits && match rest with
    | [] => true
    | b :: r =>
      let (exponent, r) := dropDigits (dropSign r)
      Text.lower b == 0x65 && exponent && r.isEmpty

/-- A decimal number, if it is one. -/
def decimal? (t : Text) : Option Scalar :=
  if isDecimal t then (Double.parse t).toOption.map .number else none

/-- An integer of 64 bits, with a sign or without. -/
def integer? (t : Text) : Option Scalar :=
  match Numeral.signed t, Numeral.readMarked (2 ^ 64 - 1) t with
  | .ok i, _ => some (.integer i)
  | _, .ok n => some (.integer n)
  | _, _ => none

/-- An integer with a sign between the mark of its base and its digits. -/
def oddInteger? (t : Text) : Option Scalar :=
  match t with
  | 0x30 :: b :: s :: digits =>
    if (b = 0x62 ∨ b = 0x6f) ∧ (s = 0x2b ∨ s = 0x2d) ∧ digits.head?.any Text.isDigit then
      (Numeral.signed (s :: 0x30 :: b :: digits)).toOption.map .integer
    else none
  | _ => none

/-- What a plain scalar denotes; `isTime` tells whether it may be a time. Underscores between digits
have no meaning. -/
def ofPlain (isTime : Bool) (t : Text) : Scalar :=
  match words.lookup t with
  | some s => s
  | none =>
    let b := t.headD 0
    if Text.isDigit b || b == 0x2b || b == 0x2d then
      if isTime && isTimestamp t then .timestamp t
      else
        let digits := t.filter (· ≠ 0x5f)
        (integer? digits <|> decimal? digits <|> oddInteger? digits).getD (.text t)
    else if b == 0x2e then (decimal? t).getD (.text t)
    else .text t

/-! ## Tags -/

/-- The tags of what plain scalars denote, strings apart. -/
def plainTags : List Text := ["!!bool", "!!int", "!!float", "!!null", "!!timestamp"]

/-- A scalar under a tag that it does not have, if it may stand for one that has. -/
def convert? (tag : Text) : Scalar → Option Scalar
  | .integer i =>
    if tag = Text.ofString "!!float" ∧ i < 2 ^ 63 then some (.number (Double.ofInt i)) else none
  | _ => none

/-- The problem of a scalar that is not what its tag says. -/
def mismatch (tag text : Text) (s : Scalar) : Text :=
  Text.ofString "cannot decode " ++ s.tag ++ [0x20, 0x60] ++ text ++ [0x60] ++
    Text.ofString " as a " ++ tag

/-- What a scalar with a tag denotes; the empty tag leaves it to the text. A tag that is not known
makes a string of every text. -/
def ofTagged (tag text : Text) : Except Text Scalar :=
  if tag.isEmpty then .ok (ofPlain true text)
  else if tag = Text.ofString "!!binary" then
    match Text.ofBase64? text with
    | some bytes => .ok (.text bytes)
    | none => .error "!!binary value contains invalid base64 data"
  else if plainTags.contains tag then
    let s := ofPlain (tag = Text.ofString "!!timestamp") text
    if s.tag = tag then .ok s
    else
      match convert? tag s with
      | some s => .ok s
      | none => .error (mismatch tag text s)
  else .ok (.text text)

/-! ## Values -/

/-- A scalar as an integer of 64 bits. -/
def toSize? : Scalar → Option Int
  | .integer i => if i < 2 ^ 63 then some i else none
  | .number x =>
    if x.isNaN || Double.lt (Double.ofInt (2 ^ 63)) x then none
    else
      let i := x.truncInt
      some (if x.isFinite && -2 ^ 63 ≤ i && i < 2 ^ 63 then i else -2 ^ 63)
  | _ => none

/-- Words that mean yes. -/
def yesWords : List Text := ["y", "Y", "yes", "Yes", "YES", "on", "On", "ON"]

/-- Words that mean no. -/
def noWords : List Text := ["n", "N", "no", "No", "NO", "off", "Off", "OFF"]

/-- A scalar as a truth value, which may also be a word. -/
def toSwitch? : Scalar → Option Bool
  | .bool b => some b
  | .text t =>
    if yesWords.contains t then some true
    else if noWords.contains t then some false
    else none
  | _ => none

end Scalar

end RegisterJit.Yaml
