import RegisterJit.Text.Bytes

/-!
# Memory for code

Finished code is placed at multiples of sixteen bytes. `CodeMemory` is a region of fixed size that
can be freed; `CodeSpace` has no end and is for code that is looked at and not run.

Linking takes its allocator as a parameter, so that the same session can be placed in a region, in
space without end, or fail. `Proofs.Placement` shows that the chunks of a region are aligned and do
not overlap, and what an allocator is asked for.
-/

namespace RegisterJit

/-- Why no place was found for code. -/
inductive AllocationError
  | negativeSize (size : Int)
  | freed
  | exhausted (size : Int) (available : Int)
  /-- The bytes asked for are no range of memory at all. -/
  | noRange (size : Int)
  /-- Refused for a reason of the allocator's own. -/
  | refused (reason : Text)

/-- The wording of an allocation error. -/
def AllocationError.message : AllocationError → Text
  | .negativeSize size => Text.ofString "negative allocation size " ++ Text.ofInt size
  | .freed => "executable memory already freed"
  | .exhausted size available =>
    Text.ofString "out of executable memory: need " ++ Text.ofInt size ++
      Text.ofString ", have " ++ Text.ofInt available
  | .noRange _ => []
  | .refused reason => reason

/-- The next multiple of sixteen. -/
def alignUp16 (n : Nat) : Nat := (n + 15) / 16 * 16

/-- Memory without an end. -/
structure CodeSpace where
  base : UInt64
  used : Nat

namespace CodeSpace

/-- The most bytes that are reserved at a time. -/
def largestSize : Nat := 2 ^ 48

/-- Reserve bytes; the result is their address. -/
def allocate (s : CodeSpace) (size : Int) : Except AllocationError UInt64 × CodeSpace :=
  if size < 0 then (.error (.negativeSize size), s)
  else
    let start := alignUp16 s.used
    let s' := { s with used := start + size.toNat }
    if (largestSize : Int) < size then (.error (.noRange size), s')
    else (.ok (s.base + start.toUInt64), s')

end CodeSpace

/-- A region of memory for code. -/
structure CodeMemory where
  base : UInt64
  /-- The size of the region, zero once it is freed. -/
  capacity : Nat
  used : Nat
  isFreed : Bool

namespace CodeMemory

/-- The size of a region for which none is given. -/
def defaultSize : Nat := 16 * 1024 * 1024

/-- A fresh region. -/
def ofSize (base : UInt64) (size : Int) : CodeMemory :=
  ⟨base, if size ≤ 0 then defaultSize else size.toNat, 0, false⟩

/-- Reserve bytes; the result is their address. A region is never larger than `2 ^ 63` bytes, and
neither is the sum of what is used and what is asked for. -/
def allocate (m : CodeMemory) (size : Int) : Except AllocationError UInt64 × CodeMemory :=
  if m.isFreed then (.error .freed, m)
  else
    let start := alignUp16 m.used
    if size < 0 ∨ 2 ^ 63 ≤ start + size then (.error (.noRange size), m)
    else if (m.capacity : Int) < start + size then
      (.error (.exhausted size ((m.capacity : Int) - start)), m)
    else (.ok (m.base + start.toUInt64), { m with used := start + size.toNat })

/-- Give the region back. -/
def free (m : CodeMemory) : CodeMemory := { m with capacity := 0, used := 0, isFreed := true }

/-- Whether the region is there. -/
def isMapped (m : CodeMemory) : Bool := m.capacity != 0

/-- Whether an address lies in the region. -/
def contains (m : CodeMemory) (address : UInt64) : Bool :=
  m.isMapped && m.base ≤ address && address < m.base + m.capacity.toUInt64

end CodeMemory

end RegisterJit
