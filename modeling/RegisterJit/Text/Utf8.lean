import RegisterJit.Text.Bytes

/-!
# Reading UTF-8

Texts are read one character at a time. A byte that starts no well-formed character is read alone
and stands for the replacement character, so every text has exactly one reading.

`glyphs` cuts a text into characters with the bytes they came from, and everything that goes by
characters uses it: quoting, trimming, lengths and indices of strings. `Proofs.Glyphs` has the
induction along it, `Proofs.Wrappers` compares characters with units.
-/

namespace RegisterJit.Text

/-- The character that stands for bytes that are not UTF-8. -/
def replacement : Nat := 0xfffd

/-- Whether `b` continues a character. -/
def isContinuation (b : UInt8) : Bool := b &&& 0xc0 == 0x80

/-- The six payload bits of a continuation byte. -/
def payload (b : UInt8) : Nat := b.toNat % 64

/-- The scalar value of the character that starts with `b`, and the bytes after it. `none` when no
well-formed character starts here; then only `b` itself is read. Overlong forms, surrogates and
values above `0x10ffff` are not well formed. -/
def readChar (b : UInt8) (rest : Text) : Option Nat × Text :=
  if b < 0x80 then (some b.toNat, rest)
  else if 0xc2 ≤ b ∧ b ≤ 0xdf then
    match rest with
    | c :: r =>
      if isContinuation c then (some ((b.toNat - 0xc0) * 64 + payload c), r) else (none, rest)
    | [] => (none, rest)
  else if 0xe0 ≤ b ∧ b ≤ 0xef then
    match rest with
    | c :: d :: r =>
      let v := (b.toNat - 0xe0) * 4096 + payload c * 64 + payload d
      if isContinuation c ∧ isContinuation d ∧ 0x800 ≤ v ∧ ¬ (0xd800 ≤ v ∧ v ≤ 0xdfff)
      then (some v, r) else (none, rest)
    | _ => (none, rest)
  else if 0xf0 ≤ b ∧ b ≤ 0xf4 then
    match rest with
    | c :: d :: e :: r =>
      let v := (b.toNat - 0xf0) * 262144 + payload c * 4096 + payload d * 64 + payload e
      if isContinuation c ∧ isContinuation d ∧ isContinuation e ∧ 0x10000 ≤ v ∧ v ≤ 0x10ffff
      then (some v, r) else (none, rest)
    | _ => (none, rest)
  else (none, rest)

/-- Reading a character leaves no more than what followed its first byte. -/
theorem length_readChar_le (b : UInt8) (rest : Text) :
    (readChar b rest).2.length ≤ rest.length := by
  unfold readChar
  split
  · simp
  split
  · split
    · split <;> simp
    · simp
  split
  · split
    · dsimp only; split <;> simp <;> omega
    · simp
  split
  · split
    · dsimp only; split <;> simp <;> omega
    · simp
  · simp

/-- One character as read: its scalar value if its bytes are well formed, and its bytes. -/
structure Glyph where
  scalar? : Option Nat
  bytes : Text

/-- How many bytes a character takes; an ill-formed one is a single byte. -/
def widthOf : (scalar? : Option Nat) → Nat
  | none => 1
  | some v => if v < 0x80 then 1 else if v < 0x800 then 2 else if v < 0x10000 then 3 else 4

/-- The characters of a text in order; their bytes joined are the text. -/
def glyphs : Text → List Glyph
  | [] => []
  | b :: rest =>
    let read := readChar b rest
    ⟨read.1, (b :: rest).take (widthOf read.1)⟩ :: glyphs read.2
termination_by t => t.length
decreasing_by
  have := length_readChar_le b rest
  simp only [List.length_cons]
  omega

/-- Reading a character and going on takes the text apart without loss. -/
theorem take_widthOf_append_readChar (b : UInt8) (rest : Text) :
    (b :: rest).take (widthOf (readChar b rest).1) ++ (readChar b rest).2 = b :: rest := by
  have hb := b.toNat_lt
  unfold readChar
  split
  · rename_i h
    have : b.toNat < 128 := h
    simp [widthOf, this]
  split
  · rename_i h
    have h1 : 0xc2 ≤ b.toNat := h.1
    have h2 : b.toNat ≤ 0xdf := h.2
    split
    · rename_i c r
      split
      · have : payload c < 64 := Nat.mod_lt _ (by decide)
        have g1 : ¬ (b.toNat - 0xc0) * 64 + payload c < 0x80 := by omega
        have g2 : (b.toNat - 0xc0) * 64 + payload c < 0x800 := by omega
        simp [widthOf, g1, g2]
      · simp [widthOf]
    · simp [widthOf]
  split
  · rename_i h
    have h2 : b.toNat ≤ 0xef := h.2
    split
    · rename_i c d r
      dsimp only
      split
      · rename_i g
        have hc : payload c < 64 := Nat.mod_lt _ (by decide)
        have hd : payload d < 64 := Nat.mod_lt _ (by decide)
        have g1 : ¬ (b.toNat - 0xe0) * 4096 + payload c * 64 + payload d < 0x80 := by omega
        have g2 : ¬ (b.toNat - 0xe0) * 4096 + payload c * 64 + payload d < 0x800 := by omega
        have g3 : (b.toNat - 0xe0) * 4096 + payload c * 64 + payload d < 0x10000 := by omega
        simp [widthOf, g1, g2, g3]
      · simp [widthOf]
    · simp [widthOf]
  split
  · split
    · rename_i c d e r
      dsimp only
      generalize (b.toNat - 0xf0) * 262144 + payload c * 4096 + payload d * 64 + payload e = v
      split
      · rename_i g
        have g1 : ¬ v < 0x80 := by omega
        have g2 : ¬ v < 0x800 := by omega
        have g3 : ¬ v < 0x10000 := by omega
        simp [widthOf, g1, g2, g3]
      · simp [widthOf]
    · simp [widthOf]
  · simp [widthOf]

/-- The bytes of the characters of a text, joined, are the text. -/
theorem flatMap_bytes_glyphs (t : Text) : (glyphs t).flatMap Glyph.bytes = t := by
  fun_induction glyphs t with
  | case1 => rfl
  | case2 b rest read ih =>
    rw [List.flatMap_cons, ih]
    exact take_widthOf_append_readChar b rest

/-- The scalar values of a text, with the replacement character for ill-formed bytes. -/
def scalars (t : Text) : List Nat := (glyphs t).map fun g => g.scalar?.getD replacement

/-- The UTF-8 bytes of a scalar value; what is no scalar value is written as the replacement
character. -/
def encodeChar (v : Nat) : Text :=
  if v < 0x80 then [v.toUInt8]
  else if v < 0x800 then [(0xc0 + v / 64).toUInt8, (0x80 + v % 64).toUInt8]
  else if 0xd800 ≤ v ∧ v ≤ 0xdfff then [0xef, 0xbf, 0xbd]
  else if v < 0x10000 then
    [(0xe0 + v / 4096).toUInt8, (0x80 + v / 64 % 64).toUInt8, (0x80 + v % 64).toUInt8]
  else if v ≤ 0x10ffff then
    [(0xf0 + v / 262144).toUInt8, (0x80 + v / 4096 % 64).toUInt8, (0x80 + v / 64 % 64).toUInt8,
      (0x80 + v % 64).toUInt8]
  else [0xef, 0xbf, 0xbd]

/-! ## UTF-16 units -/

/-- The UTF-16 units of a scalar value: one, or a surrogate pair above `0xffff`. -/
def unitsOfScalar (v : Nat) : List Nat :=
  if v < 0x10000 then [v] else [0xd800 + (v - 0x10000) / 1024, 0xdc00 + (v - 0x10000) % 1024]

/-- The UTF-16 units of a text. -/
def units (t : Text) : List Nat := (scalars t).flatMap unitsOfScalar

/-- The difference of two sequences of units: that of the first units that differ, or else that of
their lengths. -/
def compareUnits : List Nat → List Nat → Int
  | a :: as, b :: bs => if a = b then compareUnits as bs else a - b
  | as, bs => as.length - bs.length

end RegisterJit.Text
