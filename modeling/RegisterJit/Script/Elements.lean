import RegisterJit.Value.Primitive

/-!
# Element vectors

The elements of an array stand in a vector with room for some more. A vector that outgrows its room
moves to a larger place, and what was written so far stays behind. Whoever goes through the elements
meanwhile goes on with the place it started at: it sees every change made there, and none made after
the move. The places left behind are kept, so that the generation of a place is its position among
them.
-/

namespace RegisterJit

/-- The elements of an array, with empty values as holes. -/
structure Elements where
  items : Array Value
  /-- How many elements fit without a move. -/
  room : Nat
  /-- The places left behind as they were at the move, oldest first. -/
  outgrown : Array (Array Value)

namespace Elements

/-- The sizes of small places, in elements. -/
def smallRooms : List Nat :=
  [1, 2, 3, 4, 6, 8, 10, 12, 14, 16, 18, 20, 22, 24, 26, 28, 30, 32, 36, 40, 44, 48, 52, 56, 60, 64,
    72, 80, 88, 96, 112, 128, 144, 160, 176, 192, 224, 256, 288, 336, 384, 400, 432, 512, 608, 640,
    672, 768, 816, 848, 864, 1024, 1184, 1216, 1280, 1360, 1536, 1696, 1792, 2048, 2304, 2384, 2560,
    2720, 3072, 3408, 3584, 4096]

/-- The smallest place for `n` elements: one of the small sizes, or else whole pages of 1024. -/
def roomFor (n : Nat) : Nat := (smallRooms.find? (n ≤ ·)).getD ((n + 1023) / 1024 * 1024)

/-- A room that grows by a quarter and a little more until it is enough. -/
def stretch (room need : Nat) : Nat :=
  let next := room + (room + 768) / 4
  if need ≤ next then next else stretch next need
termination_by need - room
decreasing_by omega

/-- The room that a place of `room` is exchanged for when `need` elements do not fit: small places
double, large ones grow by less, and what is needed is the least. -/
def nextRoom (room need : Nat) : Nat :=
  roomFor (if 2 * room < need then need else if room < 256 then 2 * room else stretch room need)

/-- `n` holes. -/
def holes (n : Nat) : Elements := ⟨Array.replicate n Value.empty, n, #[]⟩

/-- The number of elements. -/
def size (e : Elements) : Nat := e.items.size

/-- The generation of the current place. -/
def generation (e : Elements) : Nat := e.outgrown.size

/-- Move on if `need` elements do not fit. -/
def reserve (e : Elements) (need : Nat) : Elements :=
  if need ≤ e.room then e
  else { e with room := nextRoom e.room need, outgrown := e.outgrown.push e.items }

/-- Add elements at the end. -/
def append (e : Elements) (vs : Array Value) : Elements :=
  let e := e.reserve (e.size + vs.size)
  { e with items := e.items ++ vs }

/-- Cut the elements, or add holes. -/
def setLength (e : Elements) (n : Nat) : Elements :=
  if n ≤ e.size then { e with items := e.items.shrink n }
  else e.append (Array.replicate (n - e.size) Value.empty)

/-- Overwrite an element. -/
def set (e : Elements) (i : Nat) (v : Value) : Elements :=
  { e with items := e.items.setIfInBounds i v }

/-- The element at an index of the place of a generation; there is a hole past its end. -/
def seenFrom (e : Elements) (generation i : Nat) : Value :=
  (e.outgrown.getD generation e.items).getD i Value.empty

@[simp]
theorem items_reserve (e : Elements) (need : Nat) : (e.reserve need).items = e.items := by
  unfold reserve
  split <;> rfl

@[simp]
theorem items_append (e : Elements) (vs : Array Value) : (e.append vs).items = e.items ++ vs := by
  simp [append]

/-- Who goes through the current place sees the elements. -/
theorem seenFrom_generation (e : Elements) (i : Nat) :
    e.seenFrom e.generation i = e.items.getD i Value.empty := by
  simp [seenFrom, generation]

end Elements

end RegisterJit
