import RegisterJit.Text.Bytes

/-!
# Timestamps

A timestamp is a date, with a time of day if it goes on: after a letter T with a zone, after blanks
without one. Only whether a text is one matters here.
-/

namespace RegisterJit.Yaml

namespace Timestamp

/-- Read a number of one or two digits. -/
def short? : Text → Option (Nat × Text)
  | a :: b :: rest =>
    if !Text.isDigit a then none
    else if Text.isDigit b then some ((a.toNat - 0x30) * 10 + (b.toNat - 0x30), rest)
    else some (a.toNat - 0x30, b :: rest)
  | [a] => if Text.isDigit a then some (a.toNat - 0x30, []) else none
  | [] => none

/-- Read a number of two digits. -/
def two? (t : Text) : Option (Nat × Text) :=
  if (t.drop 1).head?.any Text.isDigit then short? t else none

/-- Read a byte that has to be there. -/
def sign? (b : UInt8) : Text → Option Text
  | [] => none
  | c :: rest => if c = b then some rest else none

/-- The number of days of a month. -/
def daysIn (year month : Nat) : Nat :=
  if month = 2 then
    if year % 4 = 0 ∧ (year % 100 ≠ 0 ∨ year % 400 = 0) then 29 else 28
  else if month = 4 ∨ month = 6 ∨ month = 9 ∨ month = 11 then 30
  else 31

/-- Read a date. -/
def date? (t : Text) : Option Text := do
  let digits := t.takeWhile Text.isDigit
  guard (digits.length = 4)
  let year := digits.foldl (fun n b => n * 10 + (b.toNat - 0x30)) 0
  let (month, rest) ← short? (← sign? 0x2d (t.drop 4))
  let (day, rest) ← short? (← sign? 0x2d rest)
  guard (1 ≤ month ∧ month ≤ 12 ∧ 1 ≤ day ∧ day ≤ daysIn year month)
  return rest

/-- Read a time of day, with a fraction of a second if one follows. -/
def clock? (t : Text) : Option Text := do
  let (hour, rest) ← short? t
  let (minute, rest) ← short? (← sign? 0x3a rest)
  let (second, rest) ← short? (← sign? 0x3a rest)
  guard (hour < 24 ∧ minute < 60 ∧ second < 60)
  match rest with
  | a :: b :: more =>
    if (a = 0x2e ∨ a = 0x2c) ∧ Text.isDigit b then return more.dropWhile Text.isDigit
    else return rest
  | _ => return rest

/-- Whether a text is a time zone. -/
def isZone (t : Text) : Bool :=
  match t with
  | [0x5a] => true
  | [s, _, _, 0x3a, _, _] =>
    match two? (t.drop 1), two? (t.drop 4) with
    | some (hours, _), some (minutes, _) => (s = 0x2b || s = 0x2d) && hours ≤ 24 && minutes ≤ 60
    | _, _ => false
  | _ => false

/-- Whether a text goes on after its date like a timestamp. -/
def isTail : Text → Bool
  | [] => true
  | b :: rest =>
    if b = 0x54 || b = 0x74 then (clock? rest).any isZone
    else b = 0x20 && (clock? (rest.dropWhile (· = 0x20))).any (·.isEmpty)

end Timestamp

/-- Whether a text is a timestamp. -/
def isTimestamp (t : Text) : Bool := (Timestamp.date? t).any Timestamp.isTail

end RegisterJit.Yaml
