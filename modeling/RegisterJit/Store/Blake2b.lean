import RegisterJit.Codec.LittleEndian

/-!
# BLAKE2b with 256-bit digests

The hash by which programs are addressed: twelve rounds of mixing over blocks of 128 octets, without
a key.

The state is eight words of 64 bits and addition wraps. Nothing is proved about the strength of the
digest: statements about the store say which programs have different keys as a hypothesis.
-/

namespace RegisterJit.Blake2b

/-- The initial chaining words. -/
def initial : List UInt64 :=
  [0x6a09e667f3bcc908, 0xbb67ae8584caa73b, 0x3c6ef372fe94f82b, 0xa54ff53a5f1d36f1,
    0x510e527fade682d1, 0x9b05688c2b3e6c1f, 0x1f83d9abfb41bd6b, 0x5be0cd19137e2179]

/-- The order in which each round takes the message words. -/
def schedule : List (List Nat) :=
  [[0, 1, 2, 3, 4, 5, 6, 7, 8, 9, 10, 11, 12, 13, 14, 15],
    [14, 10, 4, 8, 9, 15, 13, 6, 1, 12, 0, 2, 11, 7, 5, 3],
    [11, 8, 12, 0, 5, 2, 15, 13, 10, 14, 3, 6, 7, 1, 9, 4],
    [7, 9, 3, 1, 13, 12, 11, 14, 2, 6, 5, 10, 4, 0, 15, 8],
    [9, 0, 5, 7, 2, 4, 10, 15, 14, 1, 11, 12, 6, 8, 3, 13],
    [2, 12, 6, 10, 0, 11, 8, 3, 4, 13, 7, 5, 15, 14, 1, 9],
    [12, 5, 1, 15, 14, 13, 4, 10, 0, 7, 6, 3, 9, 2, 8, 11],
    [13, 11, 7, 14, 12, 1, 3, 9, 5, 0, 15, 4, 8, 6, 2, 10],
    [6, 15, 14, 9, 11, 3, 0, 8, 12, 2, 13, 7, 1, 4, 10, 5],
    [10, 2, 8, 4, 7, 6, 1, 5, 15, 11, 9, 14, 3, 12, 13, 0],
    [0, 1, 2, 3, 4, 5, 6, 7, 8, 9, 10, 11, 12, 13, 14, 15],
    [14, 10, 4, 8, 9, 15, 13, 6, 1, 12, 0, 2, 11, 7, 5, 3]]

/-- Rotate right. -/
def rotr (x : UInt64) (n : UInt64) : UInt64 := x >>> n ||| x <<< (64 - n)

/-- The working words of a compression. -/
abbrev Work := Vector UInt64 16

/-- Mix two message words into four working words. -/
def mix (v : Work) (a b c d : Fin 16) (x y : UInt64) : Work :=
  let v := v.set a (v[a] + v[b] + x)
  let v := v.set d (rotr (v[d] ^^^ v[a]) 32)
  let v := v.set c (v[c] + v[d])
  let v := v.set b (rotr (v[b] ^^^ v[c]) 24)
  let v := v.set a (v[a] + v[b] + y)
  let v := v.set d (rotr (v[d] ^^^ v[a]) 16)
  let v := v.set c (v[c] + v[d])
  v.set b (rotr (v[b] ^^^ v[c]) 63)

/-- One round: mix the columns, then the diagonals. -/
def round (m : Array UInt64) (v : Work) (order : List Nat) : Work :=
  let word (i : Nat) : UInt64 := m.getD (order.getD i 0) 0
  let v := mix v 0 4 8 12 (word 0) (word 1)
  let v := mix v 1 5 9 13 (word 2) (word 3)
  let v := mix v 2 6 10 14 (word 4) (word 5)
  let v := mix v 3 7 11 15 (word 6) (word 7)
  let v := mix v 0 5 10 15 (word 8) (word 9)
  let v := mix v 1 6 11 12 (word 10) (word 11)
  let v := mix v 2 7 8 13 (word 12) (word 13)
  mix v 3 4 9 14 (word 14) (word 15)

/-- The words of a block. -/
def blockWords : (count : Nat) → List UInt8 → List UInt64
  | 0, _ => []
  | count + 1, bytes =>
    (LittleEndian.decode (bytes.take 8)).toUInt64 :: blockWords count (bytes.drop 8)

/-- Absorb one block of up to 128 octets; `total` counts all octets up to its end. -/
def compress (h : List UInt64) (block : List UInt8) (total : Nat) (final : Bool) : List UInt64 :=
  let padded := block ++ List.replicate (128 - block.length) 0
  let m := (blockWords 16 padded).toArray
  let start : Work :=
    Vector.ofFn fun i =>
      if i.val < 8 then h.getD i.val 0
      else
        let w := initial.getD (i.val - 8) 0
        if i.val = 12 then w ^^^ total.toUInt64
        else if i.val = 13 then w ^^^ (total / 2 ^ 64).toUInt64
        else if i.val = 14 ∧ final then ~~~w
        else w
  let v := schedule.foldl (round m) start
  (h.zip (v.toList.zip (v.toList.drop 8))).map fun (a, b, c) => a ^^^ b ^^^ c

/-- Absorb blocks until the last one, which may be short or, for an empty message, empty. -/
def absorb : (fuel : Nat) → (h : List UInt64) → (done : Nat) → List UInt8 → List UInt64
  | 0, h, _, _ => h
  | fuel + 1, h, done, bytes =>
    if bytes.length ≤ 128 then compress h bytes (done + bytes.length) true
    else absorb fuel (compress h (bytes.take 128) (done + 128) false) (done + 128) (bytes.drop 128)

/-- The chaining words for unkeyed 32-octet digests. -/
def start256 : List UInt64 :=
  match initial with
  | w :: rest => (w ^^^ 0x01010020) :: rest
  | [] => []

/-- The 256-bit digest of a message. -/
def sum256 (message : List UInt8) : List UInt8 :=
  let h := absorb (message.length / 128 + 1) start256 0 message
  (h.flatMap fun w => LittleEndian.encode 8 w.toNat).take 32

end RegisterJit.Blake2b
