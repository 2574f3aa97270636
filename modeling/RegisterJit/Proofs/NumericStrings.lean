import RegisterJit.Proofs.DecimalLiterals
import RegisterJit.Proofs.Nearest

/-!
# Numbers in strings

The grammar of numeric strings and what they denote: nothing, hexadecimal digits, infinity and decimal literals.
A string that is none of them is not a number. Hexadecimal digits that stand for `2 ^ 64` or more are not read
either.

`NumericString` is the grammar, one rule for each form, and `Denotes` what a text of each form stands for, as a
nearest double or a special value. `stringToNumber_exact` says that conversion finds the form and gives what it
denotes, and that a text without a form gives NaN. It works on the text that is left when white space is
trimmed, whose bytes are characters of the grammar or make it refused. The exact reading of decimals is a
parameter, `ReadsExactly`. Numerals in hexadecimal that need more than 64 bits are not read (`IsWide`), which
`stringToNumber_wideNumeral` shows.
-/

namespace RegisterJit

open Double

/-! ## Hexadecimal digits -/

/-- A hexadecimal digit; letters are capital or not. -/
structure HexDigit where
  value : Nat
  capital : Bool
  lt : value < 16

namespace HexDigit

def byte (d : HexDigit) : UInt8 :=
  UInt8.ofNat (if d.value < 10 then 0x30 + d.value else if d.capital then 0x37 + d.value else 0x57 + d.value)

theorem hexValue?_byte (d : HexDigit) : Text.hexValue? d.byte = some d.value := by
  have hall (v : Fin 16) (capital : Bool) :
      Text.hexValue? (byte ⟨v.val, capital, v.isLt⟩) = some v.val := by
    revert v capital
    decide +kernel
  exact hall ⟨d.value, d.lt⟩ d.capital

theorem exists_of_hexValue? {b : UInt8} {v : Nat} (h : Text.hexValue? b = some v) :
    ∃ d : HexDigit, d.byte = b ∧ d.value = v := by
  have hall : ∀ b : UInt8, ∀ v ∈ Text.hexValue? b, ∃ h : v < 16,
      byte ⟨v, false, h⟩ = b ∨ byte ⟨v, true, h⟩ = b :=
    forall_byte (by decide +kernel)
  obtain ⟨hlt, hb | hb⟩ := hall b v h
  · exact ⟨_, hb, rfl⟩
  · exact ⟨_, hb, rfl⟩

end HexDigit

/-- A hexadecimal numeral: its mark and at least one digit. -/
structure HexNumeral where
  capital : Bool
  digits : List HexDigit
  ne_nil : digits ≠ []

namespace HexNumeral

def text (h : HexNumeral) : Text :=
  0x30 :: (if h.capital then 0x58 else 0x78) :: h.digits.map HexDigit.byte

def value (h : HexNumeral) : Nat := h.digits.foldl (fun n d => n * 16 + d.value) 0

end HexNumeral

theorem foldlM_hexValue?_eq_some_iff {t : Text} {acc n : Nat} :
    t.foldlM (fun n b => (Text.hexValue? b).map fun d => n * 16 + d) acc = some n ↔
      ∃ ds : List HexDigit, ds.map HexDigit.byte = t ∧ ds.foldl (fun n d => n * 16 + d.value) acc = n := by
  induction t generalizing acc with
  | nil =>
    constructor
    · rintro ⟨⟩
      exact ⟨[], rfl, rfl⟩
    · rintro ⟨ds, hds, rfl⟩
      rw [List.map_eq_nil_iff.1 hds]
      rfl
  | cons b t ih =>
    rw [List.foldlM_cons, Option.bind_eq_bind, Option.bind_eq_some_iff]
    constructor
    · rintro ⟨a, ha, hrest⟩
      obtain ⟨v, hv, rfl⟩ := Option.map_eq_some_iff.1 ha
      obtain ⟨d, rfl, rfl⟩ := HexDigit.exists_of_hexValue? hv
      obtain ⟨ds, rfl, hn⟩ := ih.1 hrest
      exact ⟨d :: ds, rfl, hn⟩
    · rintro ⟨ds, hds, hn⟩
      obtain ⟨d, ds, rfl, rfl, rfl⟩ := List.map_eq_cons_iff.1 hds
      exact ⟨_, by rw [d.hexValue?_byte]; rfl, ih.2 ⟨ds, rfl, hn⟩⟩

/-! ## Numeric strings -/

namespace DecimalLiteral

variable (l : DecimalLiteral)

def value : ℚ := numberOf l.digits * 10 ^ l.scale

/-- An exponent is less than what as many digits as a literal has bytes can write. -/
theorem natAbs_power_lt : l.power.natAbs < 10 ^ l.text.length := by
  cases he : l.exponent with
  | none =>
    rw [power, he]
    exact Nat.pow_pos (by decide)
  | some e =>
    have hvalue : l.power.natAbs = numberOf e.digits := by
      rw [power, he, Option.map_some, Option.getD_some, LiteralExponent.value]
      split <;> simp
    have hlength : e.digits.length ≤ l.text.length := by
      rw [text, he, exponentText, LiteralExponent.text]
      simp only [List.length_append, List.length_cons, digitsText, List.length_map]
      omega
    rw [hvalue]
    exact (numberOf_lt e.digit).trans_le (Nat.pow_le_pow_right (by decide) hlength)

theorem pattern_isNearest : IsNearest l.pattern l.value := by
  rw [pattern, value]
  split
  · next hzero =>
    have hnearest := ofDecimal_isNearest 0 l.scale
    have hround : ofDecimal 0 l.scale = 0 := by
      simp [ofDecimal, roundUnits, divRoundEven]
    rw [hround] at hnearest
    rwa [hzero]
  · exact ofDecimal_isNearest _ _

end DecimalLiteral

/-- A numeric string without the blanks around it. -/
inductive NumericString
  | nothing
  | hexadecimal (h : HexNumeral)
  | infinity (sign : NumeralSign)
  | decimal (sign : NumeralSign) (l : DecimalLiteral)

namespace NumericString

def text : NumericString → Text
  | nothing => []
  | hexadecimal h => h.text
  | infinity sign => sign.text ++ Text.ofString "Infinity"
  | decimal sign l => sign.text ++ l.text

/-- The double that a numeric string denotes is the nearest one. -/
def Denotes : NumericString → Double → Prop
  | nothing, x => x = zero
  | hexadecimal h, x => ∃ m, IsNearest m h.value ∧ x = ofMagnitude false m
  | infinity sign, x => x = signedInfinity sign.negative
  | decimal sign l, x => ∃ m, IsNearest m l.value ∧ x = ofMagnitude sign.negative m

/-- Hexadecimal digits that do not fit 64 bits. -/
def IsWide : NumericString → Prop
  | hexadecimal h => 2 ^ 64 ≤ h.value
  | _ => False

end NumericString

/-- A reader is right about a literal: it gives the nearest double, and if that is infinity, the infinity of the
sign with a fault. -/
def ReadsExactly (read : Text → Double × Option NumeralFault) (sign : NumeralSign) (l : DecimalLiteral) :
    Prop :=
  ∃ m, IsNearest m l.value ∧ read (sign.text ++ l.text) =
    (ofMagnitude sign.negative m, if m = infinityMagnitude then some .outOfRange else none)

theorem acceptedNumber_of_readsExactly {read : Text → Double × Option NumeralFault} {sign : NumeralSign}
    {l : DecimalLiteral} (h : ReadsExactly read sign l) :
    ∃ m, IsNearest m l.value ∧
      acceptedNumber (read (sign.text ++ l.text)) = ofMagnitude sign.negative m := by
  obtain ⟨m, hm, hread⟩ := h
  refine ⟨m, hm, ?_⟩
  rw [hread]
  split <;> rfl

theorem parseFloat_readsExactly (sign : NumeralSign) (l : DecimalLiteral) (h : l.power.natAbs < 100000) :
    ReadsExactly parseFloat sign l := by
  refine ⟨l.pattern, l.pattern_isNearest, ?_⟩
  have hminus : decide ((sign.text ++ l.text).head? = some 0x2d) = sign.negative := by
    obtain ⟨b, rest, hcons, hb⟩ := l.exists_cons_unsigned
    cases sign with
    | plus | minus => rfl
    | none =>
      rw [hcons]
      exact decide_eq_false fun h => hb.2 (Option.some.inj h)
  rw [parseFloat, l.parse_eq sign h]
  split_ifs with hlarge
  · dsimp only
    rw [hminus, hlarge, signedInfinity]
  · rfl

/-! ## Numbers of trimmed texts -/

section

variable (read : Text → Double × Option NumeralFault)

theorem hexNumber?_digits (h : HexNumeral) :
    hexNumber? (h.digits.map HexDigit.byte) = if h.value < 2 ^ 64 then some h.value else none := by
  have hfold := foldlM_hexValue?_eq_some_iff.2 ⟨h.digits, rfl, (rfl : _ = h.value)⟩
  obtain ⟨d, ds, hcons⟩ := List.exists_cons_of_ne_nil h.ne_nil
  rw [hcons, List.map_cons] at hfold ⊢
  rw [hexNumber?, hfold]
  exact nofun

theorem hexNumber?_eq_none {t : Text} (h : ∀ n : HexNumeral, n.digits.map HexDigit.byte ≠ t) :
    hexNumber? t = none := by
  cases t with
  | nil => rfl
  | cons b t =>
    rw [hexNumber?]
    · cases hfold : (b :: t).foldlM (fun n b => (Text.hexValue? b).map fun d => n * 16 + d) 0 with
      | none => rfl
      | some n =>
        obtain ⟨ds, hds, -⟩ := foldlM_hexValue?_eq_some_iff.1 hfold
        refine absurd hds (h ⟨false, ds, ?_⟩)
        rintro rfl
        cases hds
    · exact nofun

theorem trimmedNumber_hexadecimal (h : HexNumeral) :
    trimmedNumber read h.text = if h.value < 2 ^ 64 then Double.ofInt h.value else nan := by
  have hdigits := hexNumber?_digits h
  have hmark : (if h.capital then (0x58 : UInt8) else 0x78) = 0x78 ∨
      (if h.capital then (0x58 : UInt8) else 0x78) = 0x58 := by
    split <;> simp
  obtain ⟨d, ds, hcons⟩ := List.exists_cons_of_ne_nil h.ne_nil
  rw [hcons, List.map_cons] at hdigits
  rw [HexNumeral.text, hcons, List.map_cons, trimmedNumber, if_pos hmark, hdigits]
  split_ifs <;> rfl

theorem trimmedNumber_of_head {b : UInt8} (hb : b ≠ 0x30) (rest : Text) :
    trimmedNumber read (b :: rest) = decimalNumber read (b :: rest) := by
  unfold trimmedNumber
  split
  · next heq => cases heq
  · next heq => exact absurd (List.cons.inj heq).1 hb
  · rfl

theorem trimmedNumber_infinity (sign : NumeralSign) :
    trimmedNumber read (sign.text ++ Text.ofString "Infinity") = signedInfinity sign.negative := by
  have hcons : Text.ofString "Infinity" = 0x49 :: [0x6e, 0x66, 0x69, 0x6e, 0x69, 0x74, 0x79] := by decide
  have hunsigned : ∀ b ∈ (Text.ofString "Infinity").head?, b ≠ 0x2b ∧ b ≠ 0x2d := by
    rw [hcons]
    rintro _ ⟨⟩
    decide
  have hnumber := decimalNumber_sign read sign hunsigned
  rw [if_pos rfl, hcons] at hnumber
  rw [hcons, ← hnumber]
  cases sign <;> exact trimmedNumber_of_head read (by decide) _

/-- A text has at most one sign before the rest, or else two. -/
theorem exists_sign (t : Text) :
    (∃ (sign : NumeralSign) (body : Text), (∀ b ∈ body.head?, b ≠ 0x2b ∧ b ≠ 0x2d) ∧
      t = sign.text ++ body) ∨
    ∃ b c rest, t = b :: c :: rest ∧ (b = 0x2b ∨ b = 0x2d) ∧ (c = 0x2b ∨ c = 0x2d) := by
  have hsign {b : UInt8} (hb : b = 0x2b ∨ b = 0x2d) : ∃ sign : NumeralSign, sign.text = [b] := by
    rcases hb with rfl | rfl
    · exact ⟨.plus, rfl⟩
    · exact ⟨.minus, rfl⟩
  cases t with
  | nil => exact .inl ⟨.none, [], by simp, rfl⟩
  | cons b t =>
    by_cases hb : b = 0x2b ∨ b = 0x2d
    · obtain ⟨sign, htext⟩ := hsign hb
      cases t with
      | nil => exact .inl ⟨sign, [], by simp, by rw [htext]; rfl⟩
      | cons c t =>
        by_cases hc : c = 0x2b ∨ c = 0x2d
        · exact .inr ⟨b, c, t, rfl, hb, hc⟩
        · exact .inl ⟨sign, c :: t, by rintro _ ⟨⟩; exact not_or.1 hc, by rw [htext]; rfl⟩
    · exact .inl ⟨.none, b :: t, by rintro _ ⟨⟩; exact not_or.1 hb, rfl⟩

theorem decimalNumber_eq_nan {t : Text}
    (hinfinity : ∀ sign : NumeralSign, sign.text ++ Text.ofString "Infinity" ≠ t)
    (hliteral : ∀ (sign : NumeralSign) (l : DecimalLiteral), sign.text ++ l.text ≠ t) :
    decimalNumber read t = nan := by
  rcases exists_sign t with ⟨sign, body, hbody, rfl⟩ | ⟨b, c, rest, rfl, hb, hc⟩
  · rw [decimalNumber_sign read sign hbody, if_neg fun h => hinfinity sign (by rw [h]), if_neg]
    rw [isDecimalLiteral_iff]
    rintro ⟨l, rfl⟩
    exact hliteral sign l rfl
  · have hdrop : (b :: c :: rest).dropWhile (fun b => b == 0x2b || b == 0x2d) =
        rest.dropWhile (fun b => b == 0x2b || b == 0x2d) := by
      rw [List.dropWhile_cons_of_pos (by simpa using hb), List.dropWhile_cons_of_pos (by simpa using hc)]
    have hlength := (List.dropWhile_suffix (l := rest) fun b => b == 0x2b || b == 0x2d).length_le
    rw [decimalNumber, hdrop, if_pos]
    simp only [List.length_cons]
    omega

theorem trimmedNumber_eq_nan {t : Text} (h : ∀ n : NumericString, n.text ≠ t) :
    trimmedNumber read t = nan := by
  have hdecimal := decimalNumber_eq_nan read (fun sign => h (.infinity sign))
    fun sign l => h (.decimal sign l)
  unfold trimmedNumber
  split
  · exact absurd rfl (h .nothing)
  · next x d rest =>
    split
    · next hmark =>
      rw [hexNumber?_eq_none fun n hn => h (.hexadecimal ⟨x == 0x58, n.digits, n.ne_nil⟩) ?_]
      rw [NumericString.text, HexNumeral.text, hn]
      rcases hmark with rfl | rfl <;> rfl
    · exact hdecimal
  · exact hdecimal

end

/-! ## Numbers of strings -/

theorem stringToNumber_exact (read : Text → Double × Option NumeralFault) (t : Text)
    (hread : ∀ sign l, (NumericString.decimal sign l).text = Text.trim t → ReadsExactly read sign l) :
    (∀ s : NumericString, s.text = Text.trim t → ¬ s.IsWide → s.Denotes (stringToNumberWith read t)) ∧
    (∀ s : NumericString, s.text = Text.trim t → s.IsWide → stringToNumberWith read t = nan) ∧
    ((∀ s : NumericString, s.text ≠ Text.trim t) → stringToNumberWith read t = nan) := by
  refine ⟨fun s hs hwide => ?_, fun s hs hwide => ?_, trimmedNumber_eq_nan read⟩
  · rw [stringToNumberWith, ← hs]
    cases s with
    | nothing => rfl
    | hexadecimal h =>
      obtain ⟨m, hm, heq⟩ := ofInt_isNearest h.value
      refine ⟨m, hm, ?_⟩
      rw [NumericString.text, trimmedNumber_hexadecimal, if_pos (Nat.not_le.1 hwide), heq]
    | infinity sign => exact trimmedNumber_infinity read sign
    | decimal sign l =>
      obtain ⟨m, hm, heq⟩ := acceptedNumber_of_readsExactly (hread sign l hs)
      refine ⟨m, hm, ?_⟩
      rw [NumericString.text, trimmedNumber_literal, heq]
  · rw [stringToNumberWith, ← hs]
    cases s with
    | hexadecimal h =>
      rw [NumericString.text, trimmedNumber_hexadecimal, if_neg (Nat.not_lt.2 hwide)]
    | nothing | infinity _ | decimal _ _ => exact hwide.elim

theorem stringToNumber_exact_blanks :
    (NumericString.decimal .none ⟨[1, 2], some [5], none, by decide, by decide⟩).Denotes
      (stringToNumberWith parseFloat (Text.ofString " 12.5 ")) := by
  refine (stringToNumber_exact parseFloat (Text.ofString " 12.5 ") fun sign l hl => ?_).1 _
    (by decide +kernel) id
  have hlength : l.text.length ≤ 4 := by
    have htrim : (Text.trim (Text.ofString " 12.5 ")).length = 4 := by decide +kernel
    rw [← hl, NumericString.text, List.length_append] at htrim
    omega
  refine parseFloat_readsExactly sign l (l.natAbs_power_lt.trans_le ?_)
  exact (Nat.pow_le_pow_right (by decide) hlength).trans (by decide)

/-- Seventeen hexadecimal digits: a numeral of `2 ^ 64`. -/
def wideNumeral : HexNumeral where
  capital := false
  digits := ⟨1, false, by decide⟩ :: List.replicate 16 ⟨0, false, by decide⟩
  ne_nil := List.cons_ne_nil _ _

/-- Hexadecimal digits that do not fit 64 bits are not a number, though they denote one. -/
theorem stringToNumber_wideNumeral :
    wideNumeral.text = Text.ofString "0x10000000000000000" ∧
    Text.trim wideNumeral.text = wideNumeral.text ∧
    ¬ (NumericString.hexadecimal wideNumeral).Denotes (stringToNumber wideNumeral.text) := by
  refine ⟨by decide +kernel, by decide +kernel, ?_⟩
  rintro ⟨m, hm, heq⟩
  have hnan : stringToNumber wideNumeral.text = nan := by decide +kernel
  have hmagnitude := magnitude_ofMagnitude false (m := m) (hm.le.trans_lt (by decide))
  rw [← heq, hnan] at hmagnitude
  exact absurd hm.le (hmagnitude ▸ by decide)

end RegisterJit
