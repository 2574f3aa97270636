import RegisterJit.Number.Shortest
import RegisterJit.Text.Bytes

/-!
# Number texts

Two texts of a double, both from its shortest digits. A literal in a listing is positional from
`10 ^ -4` up to `10 ^ 6`; its exponent has at least two digits and it keeps the sign of zero. A
number shown to a script is positional from `10 ^ -6` up to `10 ^ 21`, and zero has no sign.

`Proofs.NumberLayouts` shows that the text for scripts is read back as the number, whichever layout
is chosen. A digit at a fixed place of the digits is looked up by index in the layouts, and `slice?`
and `afterFirst?` say where this could go wrong; it never does for the shortest digits of a number.
-/

namespace RegisterJit.Double

/-- Digits as text. -/
def digitsText (ds : List Nat) : Text := ds.map fun d => (0x30 + d).toUInt8

/-- `n` zeros. -/
def zeros (n : Nat) : Text := List.replicate n 0x30

/-- Digits with a point after the first, if more follow. -/
def pointAfterFirst (ds : List Nat) : Text :=
  match ds with
  | [] => []
  | [d] => digitsText [d]
  | d :: rest => digitsText [d] ++ [0x2e] ++ digitsText rest

/-- Digits in positional notation for the point at `point`. -/
def positional (ds : List Nat) (point : Int) : Text :=
  let k := ds.length
  if point ≤ 0 then Text.ofString "0." ++ zeros (-point).toNat ++ digitsText ds
  else if k ≤ point.toNat then digitsText ds ++ zeros (point.toNat - k)
  else digitsText (ds.take point.toNat) ++ [0x2e] ++ digitsText (ds.drop point.toNat)

/-- A sign and a number of digits, at least two. -/
def twoDigitExponent (e : Int) : Text :=
  let n := Text.ofNat e.natAbs
  (if e < 0 then [0x2d] else [0x2b]) ++ (if n.length < 2 then 0x30 :: n else n)

/-- The text of a number in a listing. -/
def literalText (x : Double) : Text :=
  if x.isNaN then "NaN"
  else
    let sign : Text := if x.isNegative then [0x2d] else []
    if x.isInfinite then if x.isNegative then "-Inf" else "+Inf"
    else if x.isZero then sign ++ [0x30]
    else
      let d := x.shortestDigits
      let e := d.point - 1
      if e < -4 ∨ 6 ≤ e then sign ++ pointAfterFirst d.digits ++ [0x65] ++ twoDigitExponent e
      else sign ++ positional d.digits d.point

/-- The part of a text between two places, if it has these places in this order. -/
def slice? (t : Text) (start stop : Int) : Option Text :=
  if 0 ≤ start ∧ start ≤ stop ∧ stop ≤ t.length then
    some ((t.take stop.toNat).drop start.toNat)
  else none

/-- Some zeros, if their number is not negative. -/
def zeros? (n : Int) : Option Text := if 0 ≤ n then some (zeros n.toNat) else none

/-- The digits after the first behind a point, if there are more. -/
def afterFirst? (digits : Text) : Option Text :=
  if 1 < digits.length then (slice? digits 1 digits.length).map (0x2e :: ·) else some []

/-- The digits of a positive number shown to a script, for the point at `point`; nothing if the
layout asks for places that the digits do not have. -/
def scriptLayout? (digits : Text) (point : Int) : Option Text :=
  let k : Int := digits.length
  if k ≤ point ∧ point ≤ 21 then (zeros? (point - k)).map fun z => digits ++ z
  else if 0 < point ∧ point ≤ 21 then do
    let whole ← slice? digits 0 point
    let fraction ← slice? digits point k
    return whole ++ [0x2e] ++ fraction
  else if -6 < point ∧ point ≤ 0 then
    (zeros? (-point)).map fun z => Text.ofString "0." ++ z ++ digits
  else do
    let e := point - 1
    let first ← slice? digits 0 1
    let rest ← afterFirst? digits
    return first ++ rest ++ [0x65] ++ (if e < 0 then [0x2d] else [0x2b]) ++ Text.ofNat e.natAbs

/-- The text of a number shown to a script, if its layout is possible. -/
def scriptText? (x : Double) : Option Text :=
  if x.isNaN then some "NaN"
  else if x.isZero then some "0"
  else
    let sign : Text := if x.isNegative then [0x2d] else []
    if x.isInfinite then some (sign ++ Text.ofString "Infinity")
    else
      let d := x.shortestDigits
      (scriptLayout? (digitsText d.digits) d.point).map (sign ++ ·)

/-- The text of a number shown to a script; its layout is always possible. -/
def scriptText (x : Double) : Text := x.scriptText?.getD []

end RegisterJit.Double
