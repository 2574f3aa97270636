import Mathlib.Tactic.Common
import Mathlib.Tactic.IntervalCases
import RegisterJit.Codec.Natural

/-!
# Integers and lengths are read back

Little-endian octets give back the low part of a number. A compact natural is read back whatever
follows it, reading looks at no more than the octets it uses, and no other octets for the same
number are fewer. The octets of a number tell where they end: no other compact natural begins with them,
and a reader that asks for octets by their place, and could ask for one behind the last, never does.

The writer puts the width into the highest bits of the first octet and the number into the others;
`toNat_header` says that nothing is lost by this, and `decode_used` which octets a reader has used. Round trip,
minimality and the property of being self-delimiting are consequences of these two. A second reader asks for its
octets by their place in the input and could fault there; `reading_eq` shows that it gives what the first one
gives, and `reading_used` that it asks only for octets that exist. `Images` and `Decoding` use integers of a
fixed width and compact ones from here.
-/

namespace RegisterJit

namespace LittleEndian

theorem decode_encode (n x : Nat) : decode (encode n x) = x % 256 ^ n := by
  induction n generalizing x with
  | zero => simp [encode, decode, Nat.mod_one]
  | succ n ih =>
    have hbyte : x.toUInt8.toNat = x % 256 := by simp
    rw [encode, decode, ih, hbyte, Nat.pow_succ, Nat.mul_comm (256 ^ n), Nat.mod_mul]

theorem decode_lt (bytes : List UInt8) : decode bytes < 256 ^ bytes.length := by
  induction bytes with
  | nil => decide
  | cons b bytes ih =>
    have hb := b.toNat_lt
    rw [decode, List.length_cons, Nat.pow_succ]
    omega

end LittleEndian

namespace Natural

theorem two_pow_octets (l : Nat) : 2 ^ (8 * l) = 256 ^ l := by
  rw [Nat.pow_mul]

theorem leadingOnes_eq_iff {header : UInt8} {l : Nat} (hl : l < 8) :
    leadingOnes header = l ↔
      256 - 2 ^ (8 - l) ≤ header.toNat ∧ header.toNat < 256 - 2 ^ (7 - l) := by
  have hall : ∀ (n : Fin 256) (l : Fin 8), leadingOnes (UInt8.ofNat n) = l ↔
      256 - 2 ^ (8 - l.val) ≤ n.val ∧ n.val < 256 - 2 ^ (7 - l.val) := by decide +kernel
  have h := hall ⟨header.toNat, header.toNat_lt⟩ ⟨l, hl⟩
  rwa [UInt8.ofNat_toNat] at h

theorem leadingOnes_le (header : UInt8) : leadingOnes header ≤ 8 := by
  unfold leadingOnes
  split_ifs <;> decide

theorem toNat_of_leadingOnes_eq_eight {header : UInt8} (h : leadingOnes header = 8) :
    header.toNat = 255 := by
  have hall : ∀ n : Fin 256, leadingOnes (UInt8.ofNat n) = 8 → n.val = 255 := by decide +kernel
  have h' := hall ⟨header.toNat, header.toNat_lt⟩
  rw [UInt8.ofNat_toNat] at h'
  exact h' h

theorem tailLength_le_iff {x l : Nat} : tailLength x ≤ l ↔ x < 2 ^ (7 * l + 7) := by
  rw [tailLength]
  by_cases hx : x = 0
  · subst hx
    simp
  · rw [← Nat.log2_lt hx]
    omega

theorem length_encode (x : Nat) : (encode x).length = 1 + min (tailLength x) 8 := by
  unfold encode
  dsimp only
  split
  · rw [List.length_cons, LittleEndian.length_encode]
    omega
  · rw [List.length_cons, LittleEndian.length_encode]
    omega

theorem length_encode_pos (x : Nat) : 0 < (encode x).length := by
  rw [length_encode]
  omega

/-- The header of a number with few bits: its leading ones, then the high bits. -/
theorem toNat_header {x l : Nat} (hl : l < 8) (hx : x < 2 ^ (7 * l + 7)) :
    (256 - 2 ^ (8 - l) + x / 2 ^ (8 * l)).toUInt8.toNat = 256 - 2 ^ (8 - l) + x / 2 ^ (8 * l) ∧
      x / 2 ^ (8 * l) < 2 ^ (7 - l) := by
  have hhigh : x / 2 ^ (8 * l) < 2 ^ (7 - l) := by
    rw [Nat.div_lt_iff_lt_mul (Nat.two_pow_pos _), ← Nat.pow_add]
    have : 7 - l + 8 * l = 7 * l + 7 := by omega
    rwa [this]
  refine ⟨?_, hhigh⟩
  rw [Nat.toUInt8_eq, UInt8.toNat_ofNat', Nat.mod_eq_of_lt]
  interval_cases l <;> omega

theorem decode_encode {x : Nat} (h : x < 2 ^ 64) (rest : List UInt8) :
    decode (encode x ++ rest) = some (x, rest) := by
  unfold encode
  dsimp only
  by_cases hl : tailLength x < 8
  · have hx := tailLength_le_iff.1 (Nat.le_refl (tailLength x))
    generalize tailLength x = l at hl hx
    obtain ⟨hheader, hhigh⟩ := toNat_header hl hx
    have hones : leadingOnes (256 - 2 ^ (8 - l) + x / 2 ^ (8 * l)).toUInt8 = l := by
      rw [leadingOnes_eq_iff hl, hheader]
      interval_cases l <;> omega
    rw [if_pos hl, List.cons_append, decode]
    simp only [hones, hheader]
    rw [if_neg (by simp), List.take_left' (by simp), List.drop_left' (by simp),
      LittleEndian.decode_encode, Nat.add_sub_cancel_left, two_pow_octets, Nat.mul_comm,
      Nat.div_add_mod]
  · rw [if_neg hl, List.cons_append, decode]
    simp only [show leadingOnes 0xff = 8 by decide]
    rw [if_neg (by simp), List.take_left' (by simp), List.drop_left' (by simp),
      LittleEndian.decode_encode, Nat.mod_eq_of_lt (show x < 256 ^ 8 from h)]
    change some (0 * 2 ^ 64 + x, rest) = some (x, rest)
    rw [Nat.zero_mul, Nat.zero_add]

/-- What is read takes some octets off the front, and would be read from these alone; the number
has no shorter form. -/
theorem decode_used {input rest : List UInt8} {x : Nat} (h : decode input = some (x, rest)) :
    ∃ head, input = head ++ rest ∧ x < 2 ^ 64 ∧ (encode x).length ≤ head.length ∧
      ∀ more, decode (head ++ more) = some (x, more) := by
  cases input with
  | nil => cases h
  | cons header tail =>
    have hle := leadingOnes_le header
    have hiff := @leadingOnes_eq_iff header
    have height := @toNat_of_leadingOnes_eq_eight header
    rw [decode] at h
    dsimp only at h
    generalize hl : leadingOnes header = l at *
    split at h
    · cases h
    rename_i hlong
    rw [Option.some.injEq, Prod.mk.injEq] at h
    obtain ⟨hx, rfl⟩ := h
    have hlength : (tail.take l).length = l := by
      rw [List.length_take]
      omega
    have htail := LittleEndian.decode_lt (tail.take l)
    rw [hlength] at htail
    have hbound : x < 2 ^ 64 ∧ min (tailLength x) 8 ≤ l := by
      rcases Nat.lt_or_eq_of_le hle with hlt | rfl
      · obtain ⟨hlow, hhigh⟩ := (hiff hlt).1 rfl
        have hxl : x < 2 ^ (7 * l + 7) := by
          interval_cases l <;> omega
        refine ⟨Nat.lt_of_lt_of_le hxl (Nat.pow_le_pow_right (by decide) (by omega)), ?_⟩
        have := tailLength_le_iff.2 hxl
        omega
      · have hff := height rfl
        refine ⟨?_, Nat.min_le_right ..⟩
        rw [← hx, hff]
        omega
    refine ⟨header :: tail.take l, ?_, hbound.1, ?_, fun more => ?_⟩
    · rw [List.cons_append, List.take_append_drop]
    · rw [length_encode, List.length_cons, hlength]
      omega
    · rw [List.cons_append, decode]
      simp only [hl]
      rw [if_neg (by rw [List.length_append]; omega), List.take_left' hlength,
        List.drop_left' hlength, hx]

/-! ## Readers by place -/

/-- What a reader that asks for octets by their place comes to. -/
inductive Reading
  /-- A number, and how many octets it took. -/
  | number (x count : Nat)
  /-- Octets are missing. -/
  | short
  /-- It asked for an octet behind the last. -/
  | outside
  deriving DecidableEq, Repr

/-- The number whose octets, the least significant first, are the `count` ones from place `i` on. -/
def octetsAt (p : List UInt8) : (count i : Nat) → Option Nat
  | 0, _ => some 0
  | count + 1, i =>
    match p[i]?, octetsAt p count (i + 1) with
    | some b, some high => some (b.toNat + 256 * high)
    | _, _ => none

/-- Read a compact natural from the start of some octets. -/
def reading (p : List UInt8) : Reading :=
  if p.length = 0 then .short
  else
    match p[0]? with
    | none => .outside
    | some header =>
      let l := leadingOnes header
      if p.length < 1 + l then .short
      else
        match octetsAt p l 1 with
        | none => .outside
        | some low =>
          .number ((header.toNat - (256 - 2 ^ (8 - l))) * 2 ^ (8 * l) + low) (1 + l)

theorem octetsAt_eq {p : List UInt8} {count i : Nat} (h : i + count ≤ p.length) :
    octetsAt p count i = some (LittleEndian.decode ((p.drop i).take count)) := by
  induction count generalizing i with
  | zero => simp [octetsAt, LittleEndian.decode]
  | succ count ih =>
    have hlt : i < p.length := by omega
    rw [octetsAt, ih (by omega), List.getElem?_eq_getElem hlt, List.drop_eq_getElem_cons hlt,
      List.take_succ_cons, LittleEndian.decode]

/-- Reading by places is decoding: it stays inside, and takes the octets that decoding takes. -/
theorem reading_eq (p : List UInt8) :
    reading p = match decode p with
      | none => .short
      | some (x, rest) => .number x (p.length - rest.length) := by
  cases p with
  | nil => rfl
  | cons header tail =>
    rw [reading, decode, if_neg (by simp), List.getElem?_cons_zero]
    dsimp only
    by_cases hshort : tail.length < leadingOnes header
    · rw [if_pos hshort, if_pos (by rw [List.length_cons]; omega)]
    · rw [if_neg hshort, if_neg (by rw [List.length_cons]; omega),
        octetsAt_eq (by rw [List.length_cons]; omega), List.drop_succ_cons, List.drop_zero]
      dsimp only
      congr 1
      rw [List.length_cons, List.length_drop]
      omega

theorem reading_ne_outside (p : List UInt8) : reading p ≠ .outside := by
  rw [reading_eq]
  split <;> exact Reading.noConfusion

theorem decode_of_reading {p : List UInt8} {x count : Nat} (h : reading p = .number x count) :
    ∃ rest, decode p = some (x, rest) ∧ count = p.length - rest.length := by
  rw [reading_eq] at h
  cases hd : decode p with
  | none =>
    rw [hd] at h
    cases h
  | some found =>
    obtain ⟨x', rest⟩ := found
    rw [hd] at h
    cases h
    exact ⟨rest, rfl, rfl⟩

theorem reading_encode (x : UInt64) (rest : List UInt8) :
    reading (encode x.toNat ++ rest) = .number x.toNat (encode x.toNat).length := by
  rw [reading_eq, decode_encode x.toNat_lt, List.length_append]
  dsimp only
  rw [Nat.add_sub_cancel]

/-- A number that is read took octets that are there, no fewer than its encoding has, and the octets after
them make no difference. -/
theorem reading_used {p : List UInt8} {x count : Nat} (h : reading p = .number x count) :
    1 ≤ count ∧ count ≤ p.length ∧ (encode x).length ≤ count ∧
      ∀ q : List UInt8, q.take count = p.take count → reading q = .number x count := by
  obtain ⟨rest, hdecode, rfl⟩ := decode_of_reading h
  obtain ⟨head, rfl, -, hlength, hany⟩ := decode_used hdecode
  have hpos := length_encode_pos x
  rw [List.length_append, Nat.add_sub_cancel]
  refine ⟨by omega, by omega, hlength, fun q hq => ?_⟩
  rw [List.take_left' rfl] at hq
  rw [← List.take_append_drop head.length q, hq, reading_eq, hany, List.length_append]
  dsimp only
  rw [Nat.add_sub_cancel]

/-- Compact naturals are exact, delimit themselves and are as short as possible. -/
theorem encode_exact (x y : UInt64) (p rest : List UInt8) :
    reading (encode x.toNat ++ rest) = .number x.toNat (encode x.toNat).length ∧
      (∀ z count, reading p = .number z count →
        1 ≤ count ∧ count ≤ p.length ∧ (encode z).length ≤ count ∧
          ∀ q : List UInt8, q.take count = p.take count → reading q = .number z count) ∧
      (encode x.toNat <+: encode y.toNat → x = y) ∧
      reading p ≠ .outside ∧
      reading p = match decode p with
        | none => .short
        | some (z, after) => .number z (p.length - after.length) := by
  refine ⟨reading_encode x rest, fun z count => reading_used, ?_, reading_ne_outside p, reading_eq p⟩
  rintro ⟨more, hmore⟩
  -- Both numbers are read from the same octets.
  have hx := reading_encode x more
  have hy := reading_encode y []
  rw [hmore, ← List.append_nil (encode y.toNat), hy] at hx
  exact UInt64.toNat_inj.1 (Reading.number.inj hx).1.symm

/-- Five in two octets, where one would do, and the largest number of eight octets beside the least of nine. -/
theorem encode_exact_widths :
    reading [0x80, 5, 7] = .number 5 2 ∧ (encode 5).length ≤ 2 ∧
      (encode 72057594037927935).length = 8 ∧ (encode 72057594037927936).length = 9 ∧
      reading (encode 72057594037927936 ++ [1]) = .number 72057594037927936 9 := by
  have hfive : reading [0x80, 5, 7] = .number 5 2 := by decide
  obtain ⟨hnine, hused, -⟩ := encode_exact 72057594037927936 0 [0x80, 5, 7] [1]
  have hlength : (encode 72057594037927936).length = 9 := by decide +kernel
  exact ⟨hfive, (hused 5 2 hfive).2.2.1, by decide +kernel, hlength, hlength ▸ hnine⟩

end Natural

end RegisterJit
