import RegisterJit.Codec.LittleEndian

/-!
# Compact naturals

Numbers below `2 ^ 64` in one to nine octets. The header octet starts with as many ones as octets
follow it and goes on with the high bits of the number; the octets that follow are the low bits,
least significant first. Numbers of more than 56 bits stand after a header of eight ones.

Every length in an image is written in this form. `Proofs.Naturals` shows that numbers are read back
whatever follows, in the fewest octets, and that a reader which asks for octets by their place never
asks for one that is not there.
-/

namespace RegisterJit.Natural

/-- How many octets follow the header: one for every seven bits after the first seven. -/
def tailLength (x : Nat) : Nat := x.log2 / 7

/-- The octets of a number below `2 ^ 64`. -/
def encode (x : Nat) : List UInt8 :=
  let l := tailLength x
  if l < 8 then (256 - 2 ^ (8 - l) + x / 2 ^ (8 * l)).toUInt8 :: LittleEndian.encode l x
  else 0xff :: LittleEndian.encode 8 x

/-- How many ones an octet starts with. -/
def leadingOnes (header : UInt8) : Nat :=
  if header < 0x80 then 0
  else if header < 0xc0 then 1
  else if header < 0xe0 then 2
  else if header < 0xf0 then 3
  else if header < 0xf8 then 4
  else if header < 0xfc then 5
  else if header < 0xfe then 6
  else if header < 0xff then 7
  else 8

/-- The number that a byte string starts with, and the rest; `none` when it is cut short. -/
def decode : List UInt8 → Option (Nat × List UInt8)
  | [] => none
  | header :: rest =>
    let l := leadingOnes header
    if rest.length < l then none
    else
      let high := header.toNat - (256 - 2 ^ (8 - l))
      some (high * 2 ^ (8 * l) + LittleEndian.decode (rest.take l), rest.drop l)

end RegisterJit.Natural
