import RegisterJit.Text.Utf8

/-!
# White space

The characters with the Unicode property `White_Space`, trimming and cutting at them.

Trimming works on characters, not on bytes, since a character that is blank may have several;
`Proofs.Glyphs` shows that it takes whole characters off and what the words of a line are.
-/

namespace RegisterJit.Text

/-- Whether a scalar value is white space. -/
def isBlank (v : Nat) : Bool :=
  (0x09 ≤ v && v ≤ 0x0d) || v == 0x20 || v == 0x85 || v == 0xa0 || v == 0x1680 ||
  (0x2000 ≤ v && v ≤ 0x200a) || v == 0x2028 || v == 0x2029 || v == 0x202f || v == 0x205f ||
  v == 0x3000

/-- A well-formed white-space character. -/
def Glyph.isBlank (g : Glyph) : Bool := g.scalar?.any Text.isBlank

/-- The bytes of characters, joined. -/
def ofGlyphs (gs : List Glyph) : Text := gs.flatMap Glyph.bytes

/-- Remove the characters satisfying `p` at both ends. -/
def trimGlyphs (p : Glyph → Bool) (t : Text) : Text :=
  ofGlyphs ((((glyphs t).dropWhile p).reverse.dropWhile p).reverse)

/-- Remove white space at both ends. -/
def trim (t : Text) : Text := trimGlyphs Glyph.isBlank t

/-- The maximal runs of characters that are not white space, collected from `word` on. -/
def fieldsFrom (word : Text) : List Glyph → List Text
  | [] => if word.isEmpty then [] else [word]
  | g :: gs =>
    if g.isBlank then
      if word.isEmpty then fieldsFrom [] gs else word :: fieldsFrom [] gs
    else fieldsFrom (word ++ g.bytes) gs

/-- The words of a text: its maximal runs without white space. -/
def fields (t : Text) : List Text := fieldsFrom [] (glyphs t)

end RegisterJit.Text
