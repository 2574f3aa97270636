import Mathlib.Tactic.Common
import RegisterJit.Bytecode.Parser

/-!
# Numerals read back

Numbers are written in decimal without leading zeros, so a numeral with an optional base mark has no
mark; registers are written by their number.

A numeral is digits without a leading zero, so none of the marks for other bases can be found at its front and
the reader takes it as decimal; it is followed by something that is no digit or by nothing, so that all of it is
taken. Widths are the only way in which reading could fail, and what is printed of a word fits the width of the
word. A register is a letter and a number, and there are special names for the accumulator and arguments, which
are told apart by their letters. `Parsing` and `DecimalLiterals` read the numbers of lines with these lemmas.
-/

namespace RegisterJit

namespace Text

def digitByte (d : Nat) : UInt8 := (0x30 + d).toUInt8

theorem digitChar_byte {d : Nat} (h : d < 10) : (Nat.digitChar d).toNat.toUInt8 = digitByte d := by
  have hall (d : Fin 10) : (Nat.digitChar d.val).toNat.toUInt8 = digitByte d.val := by
    revert d
    decide +kernel
  exact hall ⟨d, h⟩

theorem ofNat_of_lt {n : Nat} (h : n < 10) : ofNat n = [digitByte n] := by
  rw [ofNat, Nat.toDigits_of_lt_base h, List.map_singleton, digitChar_byte h]

theorem ofNat_of_le {n : Nat} (h : 10 ≤ n) : ofNat n = ofNat (n / 10) ++ [digitByte (n % 10)] := by
  rw [ofNat, Nat.toDigits_of_base_le (by decide) h, List.map_append, List.map_singleton,
    digitChar_byte (Nat.mod_lt _ (by decide))]
  rfl

theorem digit_of_mem_ofNat {n : Nat} {b : UInt8} (h : b ∈ ofNat n) : ∃ d < 10, b = digitByte d := by
  induction n using Nat.strongRecOn with
  | ind n ih =>
    rcases Nat.lt_or_ge n 10 with hn | hn
    · rw [ofNat_of_lt hn, List.mem_singleton] at h
      exact ⟨n, hn, h⟩
    · rw [ofNat_of_le hn, List.mem_append, List.mem_singleton] at h
      rcases h with h | rfl
      · exact ih (n / 10) (by omega) h
      · exact ⟨_, Nat.mod_lt _ (by decide), rfl⟩

theorem exists_ofNat_cons (n : Nat) :
    ∃ d < 10, ∃ rest, ofNat n = digitByte d :: rest ∧ (d = 0 → n = 0 ∧ rest = []) := by
  induction n using Nat.strongRecOn with
  | ind n ih =>
    rcases Nat.lt_or_ge n 10 with hn | hn
    · exact ⟨n, hn, [], ofNat_of_lt hn, fun h => ⟨h, rfl⟩⟩
    · obtain ⟨d, hd, rest, heq, hzero⟩ := ih (n / 10) (by omega)
      refine ⟨d, hd, rest ++ [digitByte (n % 10)], by rw [ofNat_of_le hn, heq]; rfl, fun h => ?_⟩
      have := (hzero h).1
      omega

theorem digitByte_facts {d : Nat} (h : d < 10) :
    Numeral.digit? (digitByte d) = some d ∧ (digitByte d = 0x30 → d = 0) ∧ digitByte d ≠ 0x5f ∧
      digitByte d ≠ 0x2d ∧ digitByte d ≠ 0x2b := by
  have hall (d : Fin 10) : Numeral.digit? (digitByte d.val) = some d.val ∧
      (digitByte d.val = 0x30 → d.val = 0) ∧ digitByte d.val ≠ 0x5f ∧ digitByte d.val ≠ 0x2d ∧
      digitByte d.val ≠ 0x2b := by
    revert d
    decide +kernel
  exact hall ⟨d, h⟩

end Text

namespace Numeral

theorem readDigits_le {base limit : Nat} {marks : Bool} {acc n : Nat} {t : Text}
    (hacc : acc ≤ limit) (h : readDigits base limit marks acc t = .ok n) : n ≤ limit := by
  induction t generalizing acc with
  | nil =>
    cases h
    exact hacc
  | cons b rest ih =>
    rw [readDigits] at h
    split at h
    · exact ih hacc h
    · split at h
      · cases h
      · split at h
        · cases h
        · split at h
          · cases h
          · exact ih (by omega) h

theorem unsigned_lt {bits n : Nat} {t : Text} (h : unsigned bits t = .ok n) :
    n < 2 ^ bits := by
  have hpos : 0 < 2 ^ bits := Nat.two_pow_pos bits
  unfold unsigned at h
  split at h
  · cases h
  · cases hr : readDigits 10 (2 ^ bits - 1) false 0 t with
    | error f =>
      rw [hr] at h
      cases h
    | ok m =>
      rw [hr] at h
      cases h
      have := readDigits_le (Nat.zero_le _) hr
      omega

theorem readDigits_digit {base limit acc d : Nat} {marks : Bool} (hd : d < 10) (hbase : d < base)
    (hlimit : acc * base + d ≤ limit) (rest : Text) :
    readDigits base limit marks acc (Text.digitByte d :: rest) =
      readDigits base limit marks (acc * base + d) rest := by
  obtain ⟨hdigit, -, hmark, -⟩ := Text.digitByte_facts hd
  rw [readDigits, if_neg (by simp [hmark]), hdigit]
  dsimp only
  rw [if_neg (by omega), if_neg (by omega)]

theorem readDigits_ofNat {limit n : Nat} (h : n ≤ limit) (marks : Bool) (rest : Text) :
    readDigits 10 limit marks 0 (Text.ofNat n ++ rest) = readDigits 10 limit marks n rest := by
  induction n using Nat.strongRecOn generalizing rest with
  | ind n ih =>
    rcases Nat.lt_or_ge n 10 with hn | hn
    · rw [Text.ofNat_of_lt hn, List.singleton_append, readDigits_digit hn hn (by omega), Nat.zero_mul,
        Nat.zero_add]
    · have hmod : n % 10 < 10 := Nat.mod_lt _ (by decide)
      rw [Text.ofNat_of_le hn, List.append_assoc, ih (n / 10) (by omega) (by omega),
        List.singleton_append, readDigits_digit hmod hmod (by omega), Nat.div_add_mod']

theorem unsigned_ofNat {bits n : Nat} (h : n < 2 ^ bits) : unsigned bits (Text.ofNat n) = .ok n := by
  have hread := readDigits_ofNat (Nat.le_sub_one_of_lt h) false []
  obtain ⟨d, -, rest, hcons, -⟩ := Text.exists_ofNat_cons n
  rw [List.append_nil, readDigits] at hread
  have hempty : (Text.ofNat n).isEmpty = false := by rw [hcons]; rfl
  rw [unsigned, if_neg (by simp [hempty]), hread]
  rfl

theorem readMarked_ofNat {limit n : Nat} (h : n ≤ limit) :
    readMarked limit (Text.ofNat n) = .ok n := by
  have hread := readDigits_ofNat h true []
  rw [List.append_nil, readDigits] at hread
  have hmarks : (Text.ofNat n).contains 0x5f = false := by
    rw [List.contains_eq_mem, decide_eq_false_iff_not]
    intro hmem
    obtain ⟨d, hd, hbyte⟩ := Text.digit_of_mem_ofNat hmem
    exact (Text.digitByte_facts hd).2.2.1 hbyte.symm
  obtain ⟨d, hd, rest, hcons, hzero⟩ := Text.exists_ofNat_cons n
  by_cases h0 : d = 0
  · obtain ⟨rfl, -⟩ := hzero h0
    rw [Text.ofNat_of_lt (by decide)]
    rfl
  · have hne : Text.digitByte d ≠ 0x30 := fun e => h0 ((Text.digitByte_facts hd).2.1 e)
    rw [hcons] at hread hmarks ⊢
    unfold readMarked
    split
    rename_i base digits heq
    split at heq
    · rename_i rest' hmatch
      exact absurd (List.cons.inj hmatch).1 hne
    · obtain ⟨rfl, rfl⟩ := Prod.mk.inj heq
      simp only [hread, bind, Except.bind]
      rw [hmarks]
      rfl

theorem signed_ofInt {i : Int} (hmin : -2 ^ 63 ≤ i) (hmax : i < 2 ^ 63) :
    signed (Text.ofInt i) = .ok i := by
  have hread : readMarked (2 ^ 64 - 1) (Text.ofNat i.natAbs) = .ok i.natAbs :=
    readMarked_ofNat (by omega)
  obtain ⟨d, hd, rest, hcons, -⟩ := Text.exists_ofNat_cons i.natAbs
  obtain ⟨-, -, -, hminus, hplus⟩ := Text.digitByte_facts hd
  rcases Int.lt_or_le i 0 with hi | hi
  · rw [Text.ofInt, if_pos hi, signed]
    have hempty : (Text.ofNat i.natAbs).isEmpty = false := by rw [hcons]; rfl
    simp only [beq_self_eq_true, Bool.true_or, if_true, hempty, hread, Bool.false_eq_true, if_false]
    rw [if_pos (by omega)]
    simp only [Except.mapError]
    congr 1
    omega
  · rw [Text.ofInt, if_neg (by omega), hcons, signed]
    rw [hcons] at hread
    simp only [beq_eq_false_iff_ne.2 hminus, beq_eq_false_iff_ne.2 hplus, Bool.or_self,
      Bool.false_eq_true, if_false, List.isEmpty_cons, hread]
    rw [if_pos (by omega)]
    simp only [Except.mapError]
    congr 1
    omega

end Numeral

/-! ## Registers -/

/-- A register that can be written: the number that stands for it has at most fifteen bits. -/
def Register.IsWritten (r : Register) : Prop :=
  -2 - 2 ^ 15 < r.index.toInt ∧ r.index.toInt < 2 ^ 15

instance (r : Register) : Decidable r.IsWritten := inferInstanceAs (Decidable (_ ∧ _))

theorem Register.IsWritten.ne_invalid {r : Register} (h : r.IsWritten) : r ≠ Register.invalid := by
  rintro rfl
  have := h.1
  rw [show Register.invalid.index.toInt = -2 ^ 31 from rfl] at this
  omega

namespace Listing

theorem parseRegister_numbered {kind : UInt8} (hkind : kind = 0x72 ∨ kind = 0x61) {n : Nat}
    (hn : n < 2 ^ 15) : parseRegister (kind :: Text.ofNat n) =
      .ok (if kind = 0x61 then Register.arg n else Register.ofNat n) := by
  obtain ⟨d, hd, rest, hcons, -⟩ := Text.exists_ofNat_cons n
  have hthis : kind :: Text.ofNat n ≠ Text.ofString "this" := by
    intro h
    rw [show Text.ofString "this" = [0x74, 0x68, 0x69, 0x73] by decide] at h
    have hhead : kind = 0x74 := (List.cons.inj h).1
    rcases hkind with rfl | rfl <;> exact absurd hhead (by decide)
  unfold parseRegister
  rw [if_neg hthis, hcons]
  dsimp only
  rw [if_pos hkind, ← hcons, Numeral.unsigned_ofNat hn]

theorem parseRegister_written {t : Text} {r : Register} (h : parseRegister t = .ok r) :
    r.IsWritten := by
  unfold parseRegister at h
  split at h
  · cases h
    decide
  · split at h
    · split at h
      · split at h
        · rename_i n hn
          have hlt := Numeral.unsigned_lt hn
          cases h
          split
          · rw [Register.IsWritten, Register.arg, Int32.toInt_ofInt_of_le (by omega) (by omega)]
            omega
          · rw [Register.IsWritten, Register.ofNat, Int32.toInt_ofInt_of_le (by omega) (by omega)]
            omega
        · cases h
      · cases h
    · cases h

theorem parseRegister_text {r : Register} (h : r.IsWritten) : parseRegister r.text = .ok r := by
  obtain ⟨hmin, hmax⟩ := h
  have hback (i : Int) (hi : i = r.index.toInt) : (⟨Int32.ofInt i⟩ : Register) = r := by
    rw [hi, Int32.ofInt_toInt]
  rw [Register.text, if_neg (Register.IsWritten.ne_invalid ⟨hmin, hmax⟩)]
  split
  · rename_i hthis
    unfold parseRegister
    rw [if_pos rfl, hthis]
  · rename_i hthis
    split
    · rename_i hneg
      have hne : r.index.toInt ≠ -1 := fun h => hthis (hback (-1) h.symm).symm
      obtain ⟨n, hn⟩ := Int.eq_ofNat_of_zero_le (show 0 ≤ -2 - r.index.toInt by omega)
      have htext : Text.ofString "a" ++ Text.ofInt (-2 - r.index.toInt) = 0x61 :: Text.ofNat n := by
        rw [hn, Text.ofInt, if_neg (by omega), Int.natAbs_natCast,
          show Text.ofString "a" = [0x61] by decide, List.singleton_append]
      rw [htext, parseRegister_numbered (.inr rfl) (by omega), if_pos rfl, Register.arg,
        hback _ (by omega)]
    · rename_i hpos
      obtain ⟨n, hn⟩ := Int.eq_ofNat_of_zero_le (show 0 ≤ r.index.toInt by omega)
      have htext : Text.ofString "r" ++ Text.ofInt r.index.toInt = 0x72 :: Text.ofNat n := by
        rw [hn, Text.ofInt, if_neg (by omega), Int.natAbs_natCast,
          show Text.ofString "r" = [0x72] by decide, List.singleton_append]
      rw [htext, parseRegister_numbered (.inl rfl) (by omega), if_neg (by decide), Register.ofNat,
        hback _ hn.symm]

end Listing

end RegisterJit
