import RegisterJit.Text.Utf8

/-!
# The supply of characters

The bytes of a document are UTF-8, or UTF-16 if they start with its byte order mark, and only
characters that may stand in a document are accepted. The bytes come in portions, and a portion is
decoded as a whole when it is asked for: so a problem in a portion that nobody asks for has no
effect.
-/

namespace RegisterJit.Yaml

/-- The characters of a document in portions, and the problem that comes after them, if any. -/
structure Supply where
  portions : List (List Nat)
  problem? : Option Text

namespace Supply

/-- Whether a character may stand in a document. -/
def isAllowed (v : Nat) : Bool :=
  v = 0x09 || v = 0x0a || v = 0x0d || (0x20 ≤ v && v ≤ 0x7e) || v = 0x85 ||
    (0xa0 ≤ v && v ≤ 0xd7ff) || (0xe000 ≤ v && v ≤ 0xfffd) || (0x10000 ≤ v && v ≤ 0x10ffff)

/-! ## UTF-8 -/

/-- The number of bytes of a character and the bits that its first byte holds. -/
def leadByte? (b : UInt8) : Option (Nat × Nat) :=
  if b < 0x80 then some (1, b.toNat)
  else if b &&& 0xe0 = 0xc0 then some (2, b.toNat % 32)
  else if b &&& 0xf0 = 0xe0 then some (3, b.toNat % 16)
  else if b &&& 0xf8 = 0xf0 then some (4, b.toNat % 8)
  else none

/-- The least value of a character with so many bytes. -/
def leastOfWidth : (width : Nat) → Nat
  | 2 => 0x80
  | 3 => 0x800
  | 4 => 0x10000
  | _ => 0

/-- The character of the bits of a first byte and the bytes after it. -/
def utf8Char (lead : Nat) (trail : List UInt8) : Except Text Nat :=
  if trail.any (!Text.isContinuation ·) then .error "invalid trailing UTF-8 octet"
  else
    let v := trail.foldl (fun v b => v * 64 + Text.payload b) lead
    if v < leastOfWidth (trail.length + 1) then .error "invalid length of a UTF-8 sequence"
    else if (0xd800 ≤ v && v ≤ 0xdfff) || 0x10ffff < v then .error "invalid Unicode character"
    else if !isAllowed v then .error "control characters are not allowed"
    else .ok v

/-- The characters of bytes, after those in `done`, which stand in reverse order; and the bytes of a
character that is not complete. Every step reads a byte, so as many steps as bytes are enough. -/
def utf8Chars : (fuel : Nat) → (done : List Nat) → Text → Except Text (List Nat × Text)
  | 0, done, t => .ok (done.reverse, t)
  | _, done, [] => .ok (done.reverse, [])
  | fuel + 1, done, b :: rest =>
    match leadByte? b with
    | none => .error "invalid leading UTF-8 octet"
    | some (width, lead) =>
      if rest.length + 1 < width then .ok (done.reverse, b :: rest)
      else
        match utf8Char lead (rest.take (width - 1)) with
        | .error e => .error e
        | .ok v => utf8Chars fuel (v :: done) (rest.drop (width - 1))

/-! ## UTF-16 -/

/-- The unit of two bytes. -/
def unit16 (bigEndian : Bool) (a b : UInt8) : Nat :=
  if bigEndian then a.toNat * 256 + b.toNat else b.toNat * 256 + a.toNat

/-- The characters of bytes, and the bytes of a character that is not complete. -/
def utf16Chars (bigEndian : Bool) : (done : List Nat) → Text → Except Text (List Nat × Text)
  | done, a :: b :: rest =>
    let u := unit16 bigEndian a b
    if 0xdc00 ≤ u ∧ u ≤ 0xdfff then .error "unexpected low surrogate area"
    else if 0xd800 ≤ u ∧ u ≤ 0xdbff then
      match rest with
      | c :: d :: rest =>
        let v := unit16 bigEndian c d
        if 0xdc00 ≤ v ∧ v ≤ 0xdfff then
          utf16Chars bigEndian ((0x10000 + (u - 0xd800) * 1024 + (v - 0xdc00)) :: done) rest
        else .error "expected low surrogate area"
      | rest => .ok (done.reverse, a :: b :: rest)
    else if isAllowed u then utf16Chars bigEndian (u :: done) rest
    else .error "control characters are not allowed"
  | done, t => .ok (done.reverse, t)

/-! ## Portions -/

/-- A way to write characters. -/
inductive Encoding
  | utf8
  | utf16 (bigEndian : Bool)

/-- The encoding of a document and the length of the mark that tells it. -/
def encodingOf : Text → Encoding × Nat
  | 0xff :: 0xfe :: _ => (.utf16 false, 2)
  | 0xfe :: 0xff :: _ => (.utf16 true, 2)
  | 0xef :: 0xbb :: 0xbf :: _ => (.utf8, 3)
  | _ => (.utf8, 0)

/-- The characters of bytes, and the bytes of a character that is not complete. -/
def Encoding.decode (e : Encoding) (t : Text) : Except Text (List Nat × Text) :=
  match e with
  | .utf8 => utf8Chars t.length [] t
  | .utf16 bigEndian => utf16Chars bigEndian [] t

/-- The problem of bytes at the end that are no complete character. -/
def Encoding.incomplete (e : Encoding) (t : Text) : Text :=
  match e with
  | .utf8 => "incomplete UTF-8 octet sequence"
  | .utf16 _ =>
    if t.length = 1 then "incomplete UTF-16 character" else "incomplete UTF-16 surrogate pair"

/-- The number of bytes of a portion. -/
def portionSize : Nat := 512

/-- The portions of bytes, of which the first has `held` bytes already; `left` are those of them
that were not decoded. Every step takes a byte, so as many steps as bytes are enough. -/
def ofBytes (e : Encoding) : (fuel : Nat) → (held : Nat) → (left : Text) → Text → Supply
  | 0, _, _, _ => ⟨[], none⟩
  | _, _, left, [] => ⟨[], if left.isEmpty then none else some (e.incomplete left)⟩
  | fuel + 1, held, left, t =>
    let count := portionSize - held
    match e.decode (left ++ t.take count) with
    | .error problem => ⟨[], some problem⟩
    | .ok (cs, left) =>
      let s := ofBytes e fuel left.length left (t.drop count)
      ⟨cs :: s.portions, s.problem?⟩

/-- The characters of a document. -/
def ofText (t : Text) : Supply :=
  let (e, mark) := encodingOf t
  ofBytes e (t.length + 1) mark [] (t.drop mark)

/-- The number of characters. -/
def size (s : Supply) : Nat := (s.portions.map List.length).sum

end Supply

end RegisterJit.Yaml
