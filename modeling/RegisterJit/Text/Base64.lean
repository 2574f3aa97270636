import RegisterJit.Text.Bytes

/-!
# Bytes written in 64 digits

Three bytes are written as four digits of six bits. At the end one or two bytes are written as two
or three digits, filled up with equals signs. Line breaks between the digits have no meaning.
-/

namespace RegisterJit.Text

/-- The value of a digit. -/
def digit64? (b : UInt8) : Option Nat :=
  if 0x41 ≤ b ∧ b ≤ 0x5a then some (b.toNat - 0x41)
  else if 0x61 ≤ b ∧ b ≤ 0x7a then some (b.toNat - 0x61 + 26)
  else if 0x30 ≤ b ∧ b ≤ 0x39 then some (b.toNat - 0x30 + 52)
  else if b = 0x2b then some 62
  else if b = 0x2f then some 63
  else none

/-- The number that digits write. -/
def number64? (ds : Text) : Option Nat :=
  ds.foldlM (fun n b => (digit64? b).map (n * 64 + ·)) 0

/-- The bytes that groups of four digits write. -/
def groups64? : Text → Option Text
  | [] => some []
  | [a, b, 0x3d, 0x3d] => (number64? [a, b]).map fun n => [(n / 16).toUInt8]
  | [a, b, c, 0x3d] => (number64? [a, b, c]).map fun n => [(n / 1024).toUInt8, (n / 4).toUInt8]
  | a :: b :: c :: d :: rest => do
    let n ← number64? [a, b, c, d]
    return (n / 65536).toUInt8 :: (n / 256).toUInt8 :: n.toUInt8 :: (← groups64? rest)
  | _ => none

/-- The bytes that a text writes, if it does. -/
def ofBase64? (t : Text) : Option Text := groups64? (t.filter fun b => b ≠ 0x0a && b ≠ 0x0d)

end RegisterJit.Text
