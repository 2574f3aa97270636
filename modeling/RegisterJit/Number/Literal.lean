import RegisterJit.Number.Double
import RegisterJit.Number.Numeral

/-!
# Floating-point literals

Reading a double from text: decimal digits with an optional point and exponent, hexadecimal digits
with a binary exponent, `inf`, `infinity` and `nan` in any case. The value is the nearest double;
a literal beyond the largest finite double is out of range.

The value of a literal is computed as a quotient of naturals and rounded once, so that it is the
nearest double whatever the length of the literal. Listings, configuration files and conversions of
strings use this reader; `Proofs.DecimalLiterals` computes what it reads for written decimals.
-/

namespace RegisterJit.Double

/-- The digits of a significand: their value, how many stand after the point, whether there were
any, and the text after them. -/
structure Significand where
  value : Nat
  fraction : Nat
  any : Bool
  rest : Text

/-- Read a significand in base 10 or 16 from `acc` on; underscores are skipped and the second point
ends it. -/
def readSignificand (hex : Bool) (sawPoint : Bool) (acc : Significand) : Text → Significand
  | [] => { acc with rest := [] }
  | b :: rest =>
    if b == 0x5f then readSignificand hex sawPoint acc rest
    else if b == 0x2e then
      if sawPoint then { acc with rest := b :: rest } else readSignificand hex true acc rest
    else
      let digit :=
        if Text.isDigit b then some (Text.digitValue b)
        else if hex then Text.hexValue? b else none
      match digit with
      | none => { acc with rest := b :: rest }
      | some d =>
        readSignificand hex sawPoint
          { acc with
            value := acc.value * (if hex then 16 else 10) + d
            fraction := if sawPoint then acc.fraction + 1 else acc.fraction
            any := true }
          rest

/-- Read the digits of an exponent; past five digits more make no difference. -/
def readExponent : (acc : Nat) → Text → Nat × Text
  | acc, [] => (acc, [])
  | acc, b :: rest =>
    if b == 0x5f then readExponent acc rest
    else if Text.isDigit b then
      readExponent (if acc < 10000 then acc * 10 + Text.digitValue b else acc) rest
    else (acc, b :: rest)

/-- Whether there is a sign, whether it is minus, and what follows. -/
def splitSign (t : Text) : Bool × Bool × Text :=
  match t with
  | 0x2b :: r => (true, false, r)
  | 0x2d :: r => (true, true, r)
  | _ => (false, false, t)

/-- An optional exponent introduced by `mark`: its value and the rest, or nothing when the mark
stands without digits. A missing exponent is allowed unless `required`. -/
def readOptionalExponent (mark : UInt8) (required : Bool) (t : Text) : Option (Int × Text) :=
  match t with
  | b :: rest =>
    if Text.lower b == mark then
      let (_, negative, digits) := splitSign rest
      match digits with
      | d :: _ =>
        if Text.isDigit d then
          let (e, r) := readExponent 0 digits
          some (if negative then -(e : Int) else e, r)
        else none
      | [] => none
    else if required then none else some (0, t)
  | [] => if required then none else some (0, t)

/-- The magnitude pattern of `value * 2 ^ exponent`. -/
def ofBinary (value : Nat) (exponent : Int) : Nat :=
  if 0 ≤ exponent + 1074 then
    if value = 0 then 0 else roundUnits (value * 2 ^ (min (exponent + 1074).toNat 4096)) 1
  else roundUnits value (2 ^ (-(exponent + 1074)).toNat)

/-- Whether `t`, with letters in lower case, is `word`. -/
def isWord (word : Text) (t : Text) : Bool := t.map Text.lower == word

/-- Whether there is a hexadecimal mark with something after it, and the digits. -/
def splitBase (body : Text) : Bool × Text :=
  match body with
  | 0x30 :: c :: d :: r => if Text.lower c == 0x78 then (true, d :: r) else (false, body)
  | _ => (false, body)

/-- Read a literal. -/
def parse (t : Text) : Except NumeralFault Double :=
  let (signed, negative, body) := splitSign t
  if isWord "inf" body || isWord "infinity" body then .ok (signedInfinity negative)
  else if !signed && isWord "nan" body then .ok nan
  else
    let (hex, digits) := splitBase body
    let s := readSignificand hex false ⟨0, 0, false, []⟩ digits
    if !s.any then .error .syntaxError
    else
      match readOptionalExponent (if hex then 0x70 else 0x65) hex s.rest with
      | none => .error .syntaxError
      | some (e, rest) =>
        if !rest.isEmpty then .error .syntaxError
        else if t.contains 0x5f && !Numeral.marksOk t then .error .syntaxError
        else
          let m := if hex then ofBinary s.value (e - 4 * s.fraction)
            else if s.value = 0 then 0 else ofDecimal s.value (e - s.fraction)
          if m = infinityMagnitude then .error .outOfRange else .ok (ofMagnitude negative m)

/-- The number of a literal, and what is wrong with it. A literal that is out of range has the infinity of its
sign all the same. -/
def parseFloat (t : Text) : Double × Option NumeralFault :=
  match parse t with
  | .ok x => (x, none)
  | .error .outOfRange => (signedInfinity (t.head? = some 0x2d), some .outOfRange)
  | .error .syntaxError => (zero, some .syntaxError)

end RegisterJit.Double
