import RegisterJit.Text.Quote

/-!
# Integer numerals

Reading integers from text. A plain numeral is decimal. A numeral with a base mark may start with
`0b`, `0o`, `0x` or a bare `0` (octal) and may separate digits by single underscores. Two things can
be wrong with a numeral, and the message names the reader that was asked and the text it was given.

Registers, counts and settings are read with these. Reading stops at the first fault, and faults
keep the name of the reader and the text, since messages show both. `Proofs.Numerals` shows that
printed numbers and registers are read back.
-/

namespace RegisterJit

/-- What can be wrong with a numeral. -/
inductive NumeralFault
  | syntaxError
  | outOfRange
  deriving DecidableEq, Repr

/-- Why a text is no numeral of the wanted kind. -/
structure NumeralError where
  /-- The name under which the reader reports: `ParseUint` or `ParseInt`. -/
  reader : Text
  text : Text
  fault : NumeralFault
  deriving DecidableEq, Repr

/-- The wording of a fault. -/
def NumeralFault.message : NumeralFault → Text
  | .syntaxError => "invalid syntax"
  | .outOfRange => "value out of range"

/-- The wording of a numeral error. -/
def NumeralError.message (e : NumeralError) : Text :=
  Text.ofString "strconv." ++ e.reader ++ Text.ofString ": parsing " ++ Text.quote e.text ++
    Text.ofString ": " ++ e.fault.message

namespace Numeral

/-- The value of a digit in some base up to 36, if it is one. -/
def digit? (b : UInt8) : Option Nat :=
  if Text.isDigit b then some (Text.digitValue b)
  else
    let c := Text.lower b
    if 0x61 ≤ c ∧ c ≤ 0x7a then some (c.toNat - 0x57) else none

/-- Read digits of `base`, skipping underscores if `marks`; the first fault from the left decides,
a digit string that exceeds `limit` being out of range where it does. -/
def readDigits (base limit : Nat) (marks : Bool) : (acc : Nat) → Text → Except NumeralFault Nat
  | acc, [] => .ok acc
  | acc, b :: rest =>
    if marks && b == 0x5f then readDigits base limit marks acc rest
    else
      match digit? b with
      | none => .error .syntaxError
      | some d =>
        if base ≤ d then .error .syntaxError
        else if limit < acc * base + d then .error .outOfRange
        else readDigits base limit marks (acc * base + d) rest

/-- What the character before an underscore check was. -/
inductive MarkState
  | start
  | digit
  | mark
  | other
  deriving DecidableEq

/-- Whether each underscore stands between digits (or after the base mark). -/
def marksFrom (hex : Bool) : MarkState → Text → Bool
  | s, [] => s ≠ .mark
  | s, b :: rest =>
    if Text.isDigit b || (hex && 0x61 ≤ Text.lower b && Text.lower b ≤ 0x66) then
      marksFrom hex .digit rest
    else if b == 0x5f then s == .digit && marksFrom hex .mark rest
    else s != .mark && marksFrom hex .other rest

/-- Whether the underscores of a numeral, with an optional sign and base mark, are well placed. -/
def marksOk (t : Text) : Bool :=
  let t := match t with
    | b :: rest => if b == 0x2d || b == 0x2b then rest else t
    | [] => t
  match t with
  | 0x30 :: c :: rest =>
    let l := Text.lower c
    if l == 0x62 || l == 0x6f || l == 0x78 then marksFrom (l == 0x78) .digit rest
    else marksFrom false .start t
  | _ => marksFrom false .start t

/-- Read an unsigned numeral whose base its first characters tell. -/
def readMarked (limit : Nat) (t : Text) : Except NumeralFault Nat := do
  let (base, digits) := match t with
    | 0x30 :: rest =>
      match rest with
      | c :: d :: more =>
        let l := Text.lower c
        if l == 0x62 then (2, d :: more)
        else if l == 0x6f then (8, d :: more)
        else if l == 0x78 then (16, d :: more)
        else (8, rest)
      | _ => (8, rest)
    | _ => (10, t)
  let n ← readDigits base limit true 0 digits
  if digits.contains 0x5f && !marksOk t then .error .syntaxError else .ok n

/-- A decimal number of at most `bits` bits. -/
def unsigned (bits : Nat) (t : Text) : Except NumeralError Nat :=
  let result := if t.isEmpty then .error .syntaxError else readDigits 10 (2 ^ bits - 1) false 0 t
  result.mapError fun fault => ⟨"ParseUint", t, fault⟩

/-- A signed 64-bit integer with an optional sign and base mark. -/
def signed (t : Text) : Except NumeralError Int :=
  let result : Except NumeralFault Int :=
    match t with
    | [] => .error .syntaxError
    | b :: rest =>
      let negative := b == 0x2d
      let body := if negative || b == 0x2b then rest else t
      if body.isEmpty then .error .syntaxError
      else
        match readMarked (2 ^ 64 - 1) body with
        | .error fault => .error fault
        | .ok n =>
          if negative then if n ≤ 2 ^ 63 then .ok (-(n : Int)) else .error .outOfRange
          else if n < 2 ^ 63 then .ok n else .error .outOfRange
  result.mapError fun fault => ⟨"ParseInt", t, fault⟩

end Numeral

end RegisterJit
