/-!
# Little-endian integers

An integer as a fixed number of octets, the least significant first. Every bound on a number of
octets is a power of two, so this is also where the meaning of powers is settled for all the
modules above.

Octets are taken off by division and put together by multiplication, both on naturals. The lemmas
about lengths and about reading what was written are in `Proofs.Naturals`; signed integers go
through `toSigned` and `toUnsigned`, which are inverse to each other on the range of the width.
-/

namespace RegisterJit

-- Powers and sums stand for the core's own operations, also in a module that imports an algebra of
-- monoids with instances of its own for them.
attribute [instance (high)] instPowNat
attribute [default_instance 20000] instPowNat

instance (priority := high) instZeroNat : Zero Nat := Zero.ofOfNat0

end RegisterJit

namespace RegisterJit.LittleEndian

/-- The `octets` low octets of `x`. -/
def encode : (octets : Nat) → (x : Nat) → List UInt8
  | 0, _ => []
  | octets + 1, x => x.toUInt8 :: encode octets (x / 256)

/-- The number whose octets these are. -/
def decode : List UInt8 → Nat
  | [] => 0
  | b :: rest => b.toNat + 256 * decode rest

@[simp]
theorem length_encode (octets x : Nat) : (encode octets x).length = octets := by
  induction octets generalizing x with
  | zero => rfl
  | succ n ih => simp [encode, ih]

/-- The low octets of `x` read as two's complement. -/
def toSigned (octets : Nat) (x : Nat) : Int := Int.bmod x (2 ^ (8 * octets))

/-- An integer reduced to `octets` octets; the word has no more than eight. -/
def toUnsigned (octets : Nat) (a : Int) : Nat := (a % (2 ^ (8 * min octets 8) : Nat)).toNat

end RegisterJit.LittleEndian
