import RegisterJit.Text.Bytes

/-!
# Places

A place is where a path leads: so many levels above the current directory, or at the root, and from
there down through names. Going up from a place undoes its last step down; the root has nothing
above it.
-/

namespace RegisterJit.Cli

/-- Where the way down to a place starts. -/
inductive Origin
  /-- So many levels above the current directory. -/
  | above (levels : Nat)
  | root
  deriving DecidableEq

/-- A place: its origin, and the names on the way down from there. -/
structure Place where
  origin : Origin
  steps : List Text
  deriving DecidableEq

namespace Place

/-- The current directory. -/
def here : Place := ⟨.above 0, []⟩

/-- The place of a name in a directory. -/
def down (p : Place) (name : Text) : Place := ⟨p.origin, p.steps ++ [name]⟩

/-- The directory above. -/
def up (p : Place) : Place :=
  match p.steps, p.origin with
  | [], .above n => ⟨.above (n + 1), []⟩
  | [], .root => p
  | steps, origin => ⟨origin, steps.dropLast⟩

/-- Take a step: a name, or one of the names for staying and for going up. -/
def step (p : Place) (name : Text) : Place :=
  if name = Text.ofString "." then p
  else if name = Text.ofString ".." then p.up
  else p.down name

/-- Where a path starts. -/
def start (path : Text) : Place := if path.head? = some 0x2f then ⟨.root, []⟩ else here

/-- The steps of a path. -/
def stepsOf (path : Text) : List Text := (Text.splitAt 0x2f path).filter (!·.isEmpty)

/-- The place of a path, if all directories on the way exist. -/
def ofText (path : Text) : Place := (stepsOf path).foldl step (start path)

/-- Whether a place is another one or on the way down to it. -/
def leadsTo (p q : Place) : Bool := p.origin = q.origin && p.steps.isPrefixOf q.steps

@[simp]
theorem up_down (p : Place) (name : Text) : (p.down name).up = p := by
  obtain ⟨origin, steps⟩ := p
  cases h : steps ++ [name] with
  | nil => simp at h
  | cons first rest =>
    have : (first :: rest).dropLast = steps := by rw [← h, List.dropLast_concat]
    cases origin <;> simp [down, up, h, this]

end Place

end RegisterJit.Cli
