import RegisterJit.Proofs.Digits
import RegisterJit.Proofs.Lexemes
import RegisterJit.Proofs.Numerals
import RegisterJit.Proofs.Rounding
import RegisterJit.Script.Convert

/-!
# Decimal literals

The grammar of decimal literals: digits with a point among or beside them, and an exponent. The scan that
accepts literals accepts this grammar, and the reader of floating-point numbers reads its digits, point and
exponent.

`DecimalLiteral` is a literal by its parts, so the grammar is its `text`. The scan is followed part by part
(`isDecimalFrom_run`, `isDecimalFrom_exponent`), and `isDecimalLiteral_iff` says that it accepts exactly the
texts of literals. Reading is followed in the same way, and `parse_eq` gives the number: digits and exponent of
the literal rounded once, unless the exponent is so huge that the reader gives up on its digits. `NumberLayouts` uses
it to read back what was shown, and `NumericStrings` for the conversion of strings.
-/

namespace RegisterJit

open Text (digitByte)

namespace Double

/-! ## Bytes of numerals -/

theorem digitByte_read {d : Nat} (h : d < 10) :
    Text.isDigit (digitByte d) = true ∧ Text.digitValue (digitByte d) = d := by
  have hall (d : Fin 10) :
      Text.isDigit (digitByte d.val) = true ∧ Text.digitValue (digitByte d.val) = d.val := by
    revert d
    decide +kernel
  exact hall ⟨d, h⟩

theorem digitsText_cons (d : Nat) (ds : List Nat) : digitsText (d :: ds) = digitByte d :: digitsText ds := rfl

theorem digitsText_append (ds ds' : List Nat) : digitsText (ds ++ ds') = digitsText ds ++ digitsText ds' :=
  List.map_append

def isNumeric (b : UInt8) : Bool :=
  Text.isDigit b || b == 0x2e || b == 0x65 || b == 0x45 || b == 0x2b || b == 0x2d

theorem forall_byte {p : UInt8 → Prop} (h : ∀ n : Fin 256, p (UInt8.ofNat n.val)) (b : UInt8) : p b := by
  have hb := h ⟨b.toNat, b.toNat_lt⟩
  rwa [UInt8.ofNat_toNat] at hb

theorem isNumeric_facts : ∀ b : UInt8, isNumeric b = true →
    Listing.isSymbol b = true ∧ b ≠ 0x5f ∧ Text.lower b ≠ 0x78 ∧ b ≠ 0x78 ∧ b ≠ 0x58 :=
  forall_byte (by decide +kernel)

theorem isDigit_facts : ∀ b : UInt8, Text.isDigit b = true →
    isNumeric b = true ∧ b ≠ 0x5f ∧ b ≠ 0x2e ∧ b ≠ 0x2b ∧ b ≠ 0x2d ∧ b ≠ 0x49 ∧ Text.lower b ≠ 0x69 ∧
      Text.lower b ≠ 0x6e :=
  forall_byte (by decide +kernel)

theorem digitByte_digitValue : ∀ b : UInt8, Text.isDigit b = true →
    digitByte (Text.digitValue b) = b ∧ Text.digitValue b < 10 :=
  forall_byte (by decide +kernel)

theorem isNumeric_digitsText {ds : List Nat} (h : ∀ d ∈ ds, d < 10) :
    ∀ b ∈ digitsText ds, isNumeric b = true := by
  intro b hb
  obtain ⟨d, hd, rfl⟩ := List.mem_map.1 hb
  exact (isDigit_facts _ (digitByte_read (h d hd)).1).1

end Double

open Double

/-! ## The grammar -/

/-- A sign that may be written. -/
inductive NumeralSign
  | none
  | plus
  | minus

namespace NumeralSign

def text : NumeralSign → Text
  | none => []
  | plus => [0x2b]
  | minus => [0x2d]

def negative : NumeralSign → Bool
  | minus => true
  | _ => false

end NumeralSign

/-- An exponent: its mark, a sign and digits. -/
structure LiteralExponent where
  capital : Bool
  sign : NumeralSign
  digits : List Nat
  digit : ∀ d ∈ digits, d < 10
  ne_nil : digits ≠ []

namespace LiteralExponent

def mark (e : LiteralExponent) : UInt8 := if e.capital then 0x45 else 0x65

def text (e : LiteralExponent) : Text := e.mark :: (e.sign.text ++ digitsText e.digits)

def value (e : LiteralExponent) : Int :=
  if e.sign.negative then -(numberOf e.digits : Int) else numberOf e.digits

end LiteralExponent

/-- A decimal literal without a sign: digits, perhaps a point and digits after it, of which there is at least
one, and perhaps an exponent. -/
structure DecimalLiteral where
  whole : List Nat
  fraction : Option (List Nat)
  exponent : Option LiteralExponent
  digit : ∀ d ∈ whole ++ fraction.getD [], d < 10
  ne_nil : whole ++ fraction.getD [] ≠ []

namespace DecimalLiteral

/-- The text of a point and the digits after it. -/
def pointText : Option (List Nat) → Text
  | none => []
  | some ds => 0x2e :: digitsText ds

def exponentText : Option LiteralExponent → Text
  | none => []
  | some e => e.text

variable (l : DecimalLiteral)

def text : Text := digitsText l.whole ++ (pointText l.fraction ++ exponentText l.exponent)

def digits : List Nat := l.whole ++ l.fraction.getD []

def power : Int := (l.exponent.map LiteralExponent.value).getD 0

def scale : Int := l.power - (l.fraction.getD []).length

end DecimalLiteral

/-! ## Scanning -/

theorem isDecimalFrom_of_digit {b : UInt8} (h : Text.isDigit b = true) (s : LiteralScan) (rest : Text) :
    isDecimalFrom s (b :: rest) =
      isDecimalFrom ⟨s.digits + 1, s.point, s.exponent, false, false⟩ rest := by
  rw [isDecimalFrom, if_pos h]

theorem isDigit_digitByte {d : Nat} (h : d < 10) : Text.isDigit (digitByte d) = true := (digitByte_read h).1

theorem isDecimalFrom_exponentDigits (n : Nat) (point : Bool) (t : Text) :
    isDecimalFrom ⟨n + 1, point, true, false, false⟩ t = true ↔
      ∃ ds, (∀ d ∈ ds, d < 10) ∧ t = digitsText ds := by
  induction t generalizing n with
  | nil => exact iff_of_true (by simp [isDecimalFrom]) ⟨[], by simp, rfl⟩
  | cons b rest ih =>
    by_cases hb : Text.isDigit b = true
    · obtain ⟨hbyte, hvalue⟩ := digitByte_digitValue b hb
      rw [isDecimalFrom_of_digit hb, ih]
      constructor
      · rintro ⟨ds, hds, rfl⟩
        exact ⟨Text.digitValue b :: ds, List.forall_mem_cons.2 ⟨hvalue, hds⟩, by rw [digitsText_cons, hbyte]⟩
      · rintro ⟨ds, hds, heq⟩
        cases ds with
        | nil => cases heq
        | cons d ds => exact ⟨ds, (List.forall_mem_cons.1 hds).2, (List.cons.inj heq).2⟩
    · refine iff_of_false ?_ ?_
      · simp [isDecimalFrom, hb]
      · rintro ⟨ds, hds, heq⟩
        cases ds with
        | nil => cases heq
        | cons d ds =>
          exact hb ((List.cons.inj heq).1 ▸ isDigit_digitByte (hds d List.mem_cons_self))

theorem isDigit_of_cons_eq {b : UInt8} {rest : Text} {ds : List Nat} (hds : ∀ d ∈ ds, d < 10)
    (heq : b :: rest = digitsText ds) : Text.isDigit b = true := by
  cases ds with
  | nil => cases heq
  | cons d ds => exact (List.cons.inj heq).1 ▸ isDigit_digitByte (hds d List.mem_cons_self)

theorem isDecimalFrom_firstDigit (n : Nat) (point : Bool) (t : Text) :
    isDecimalFrom ⟨n + 1, point, true, false, true⟩ t = true ↔
      ∃ ds, ds ≠ [] ∧ (∀ d ∈ ds, d < 10) ∧ t = digitsText ds := by
  cases t with
  | nil =>
    refine iff_of_false (by simp [isDecimalFrom]) ?_
    rintro ⟨ds, hne, -, heq⟩
    cases ds with
    | nil => exact hne rfl
    | cons d ds => cases heq
  | cons b rest =>
    by_cases hb : Text.isDigit b = true
    · obtain ⟨hbyte, hvalue⟩ := digitByte_digitValue b hb
      rw [isDecimalFrom_of_digit hb, isDecimalFrom_exponentDigits]
      constructor
      · rintro ⟨ds, hds, rfl⟩
        exact ⟨Text.digitValue b :: ds, List.cons_ne_nil _ _, List.forall_mem_cons.2 ⟨hvalue, hds⟩,
          by rw [digitsText_cons, hbyte]⟩
      · rintro ⟨ds, hne, hds, heq⟩
        cases ds with
        | nil => cases heq
        | cons d ds => exact ⟨ds, (List.forall_mem_cons.1 hds).2, (List.cons.inj heq).2⟩
    · refine iff_of_false (by simp [isDecimalFrom, hb]) ?_
      rintro ⟨ds, -, hds, heq⟩
      exact hb (isDigit_of_cons_eq hds heq)

/-- After the mark of an exponent a sign and digits end a literal. -/
theorem isDecimalFrom_exponent (n : Nat) (point : Bool) (t : Text) :
    isDecimalFrom ⟨n + 1, point, true, true, true⟩ t = true ↔
      ∃ (sign : NumeralSign) (ds : List Nat), ds ≠ [] ∧ (∀ d ∈ ds, d < 10) ∧
        t = sign.text ++ digitsText ds := by
  have hunsigned {b : UInt8} {rest : Text} (hsign : ¬ (b = 0x2b ∨ b = 0x2d)) :
      (∃ (sign : NumeralSign) (ds : List Nat), ds ≠ [] ∧ (∀ d ∈ ds, d < 10) ∧
        b :: rest = sign.text ++ digitsText ds) ↔
      ∃ ds, ds ≠ [] ∧ (∀ d ∈ ds, d < 10) ∧ b :: rest = digitsText ds := by
    constructor
    · rintro ⟨sign, ds, hne, hds, heq⟩
      cases sign with
      | none => exact ⟨ds, hne, hds, heq⟩
      | plus => exact absurd (.inl (List.cons.inj heq).1) hsign
      | minus => exact absurd (.inr (List.cons.inj heq).1) hsign
    · rintro ⟨ds, h⟩
      exact ⟨.none, ds, h⟩
  cases t with
  | nil =>
    refine iff_of_false (by simp [isDecimalFrom]) ?_
    rintro ⟨sign, ds, hne, -, heq⟩
    obtain ⟨d, ds, rfl⟩ := List.exists_cons_of_ne_nil hne
    cases sign <;> cases heq
  | cons b rest =>
    by_cases hb : Text.isDigit b = true
    · have hfacts := isDigit_facts b hb
      rw [hunsigned (by simp [hfacts]), ← isDecimalFrom_firstDigit n point, isDecimalFrom_of_digit hb,
        isDecimalFrom_of_digit hb]
    · by_cases hsign : b = 0x2b ∨ b = 0x2d
      · have hscan : isDecimalFrom ⟨n + 1, point, true, true, true⟩ (b :: rest) =
            isDecimalFrom ⟨n + 1, point, true, false, true⟩ rest := by
          rw [isDecimalFrom, if_neg hb, if_pos ⟨rfl, hsign⟩]
        rw [hscan, isDecimalFrom_firstDigit]
        constructor
        · rintro ⟨ds, hne, hds, rfl⟩
          rcases hsign with rfl | rfl
          · exact ⟨.plus, ds, hne, hds, rfl⟩
          · exact ⟨.minus, ds, hne, hds, rfl⟩
        · rintro ⟨sign, ds, hne, hds, heq⟩
          cases sign with
          | none => exact absurd (isDigit_of_cons_eq hds heq) hb
          | plus | minus => exact ⟨ds, hne, hds, (List.cons.inj heq).2⟩
      · refine iff_of_false (by simp [isDecimalFrom, hb, hsign]) ?_
        rw [hunsigned hsign]
        rintro ⟨ds, -, hds, heq⟩
        exact hb (isDigit_of_cons_eq hds heq)

/-- What may follow `k` digits: an exponent or nothing, or a point where there was none. -/
def LiteralTail (k : Nat) (point : Bool) (t : Text) : Prop :=
  (0 < k ∧ ∃ e, t = DecimalLiteral.exponentText e) ∨
    point = false ∧ ∃ rest, t = 0x2e :: rest ∧
      isDecimalFrom ⟨k, true, false, false, false⟩ rest = true

theorem LiteralExponent.mark_cases (e : LiteralExponent) : e.mark = 0x65 ∨ e.mark = 0x45 := by
  rw [mark]
  split <;> simp

theorem isDecimalFrom_mark {b : UInt8} (hb : b = 0x65 ∨ b = 0x45) (n : Nat) (point : Bool) (rest : Text) :
    isDecimalFrom ⟨n, point, false, false, false⟩ (b :: rest) = true ↔
      0 < n ∧ ∃ e : LiteralExponent, b :: rest = e.text := by
  have hnodigit : ¬ Text.isDigit b = true := by rcases hb with rfl | rfl <;> decide
  have hnopoint : b ≠ 0x2e := by rcases hb with rfl | rfl <;> decide
  rw [isDecimalFrom, if_neg hnodigit, if_neg (by simp), if_neg (by simp [hnopoint])]
  cases n with
  | zero => simp
  | succ n =>
    rw [if_pos (by simp [hb]), isDecimalFrom_exponent]
    refine (iff_of_eq (true_and _).symm).trans (and_congr (by simp) ⟨?_, ?_⟩)
    · rintro ⟨sign, ds, hne, hds, rfl⟩
      refine ⟨⟨b == 0x45, sign, ds, hds, hne⟩, ?_⟩
      rcases hb with rfl | rfl <;> rfl
    · rintro ⟨e, heq⟩
      exact ⟨e.sign, e.digits, e.ne_nil, e.digit, (List.cons.inj heq).2⟩

theorem isDecimalFrom_tail {t : Text} (ht : ∀ b ∈ t.head?, Text.isDigit b = false) (n : Nat)
    (point : Bool) :
    isDecimalFrom ⟨n, point, false, false, false⟩ t = true ↔ LiteralTail n point t := by
  cases t with
  | nil =>
    rw [isDecimalFrom, LiteralTail]
    constructor
    · intro h
      exact .inl ⟨by simpa using h, .none, rfl⟩
    · rintro (⟨h, -⟩ | ⟨-, _, h, -⟩)
      · simpa using h
      · cases h
  | cons b rest =>
    have hb : Text.isDigit b = false := ht b rfl
    by_cases hmark : b = 0x65 ∨ b = 0x45
    · rw [isDecimalFrom_mark hmark, LiteralTail]
      constructor
      · rintro ⟨hn, e, he⟩
        exact .inl ⟨hn, some e, he⟩
      · rintro (⟨hn, e, he⟩ | ⟨-, _, h, -⟩)
        · cases e with
          | none => cases he
          | some e => exact ⟨hn, e, he⟩
        · rcases hmark with rfl | rfl <;> cases h
    · have hexponent : ¬ ∃ e, b :: rest = DecimalLiteral.exponentText e := by
        rintro ⟨_ | e, he⟩
        · cases he
        · exact hmark ((List.cons.inj he).1 ▸ e.mark_cases)
      rw [isDecimalFrom, hb, if_neg Bool.false_ne_true, if_neg (by simp), LiteralTail]
      by_cases hpoint : b = 0x2e ∧ point = false
      · obtain ⟨rfl, rfl⟩ := hpoint
        rw [if_pos (by simp)]
        constructor
        · exact fun h => .inr ⟨rfl, rest, rfl, h⟩
        · rintro (⟨-, h⟩ | ⟨-, _, h, hrest⟩)
          · exact absurd h hexponent
          · exact (List.cons.inj h).2 ▸ hrest
      · rw [if_neg (by simpa using hpoint), if_neg (by simp [hmark])]
        refine iff_of_false Bool.false_ne_true ?_
        rintro (⟨-, h⟩ | ⟨hp, _, h, -⟩)
        · exact hexponent h
        · exact hpoint ⟨(List.cons.inj h).1, hp⟩

theorem isDecimalFrom_digits {ds : List Nat} (h : ∀ d ∈ ds, d < 10) (n : Nat) (point : Bool)
    (rest : Text) :
    isDecimalFrom ⟨n, point, false, false, false⟩ (digitsText ds ++ rest) =
      isDecimalFrom ⟨n + ds.length, point, false, false, false⟩ rest := by
  induction ds generalizing n with
  | nil => rfl
  | cons d ds ih =>
    obtain ⟨hd, hds⟩ := List.forall_mem_cons.1 h
    rw [digitsText_cons, List.cons_append, isDecimalFrom_of_digit (isDigit_digitByte hd), ih hds,
      List.length_cons, Nat.add_assoc, Nat.add_comm 1]

theorem LiteralTail.head {k : Nat} {point : Bool} {t : Text} (h : LiteralTail k point t) :
    ∀ b ∈ t.head?, Text.isDigit b = false := by
  rcases h with ⟨-, _ | e, rfl⟩ | ⟨-, rest, rfl, -⟩
  · exact nofun
  · rintro b ⟨⟩
    rcases e.mark_cases with h | h <;> rw [h] <;> rfl
  · rintro b ⟨⟩
    rfl

theorem isDecimalFrom_run (n : Nat) (point : Bool) (t : Text) :
    isDecimalFrom ⟨n, point, false, false, false⟩ t = true ↔
      ∃ ds rest, (∀ d ∈ ds, d < 10) ∧ t = digitsText ds ++ rest ∧
        LiteralTail (n + ds.length) point rest := by
  constructor
  · intro h
    induction t generalizing n with
    | nil => exact ⟨[], [], nofun, rfl, (isDecimalFrom_tail (by simp) n point).1 h⟩
    | cons b t ih =>
      cases hb : Text.isDigit b with
      | true =>
        obtain ⟨hbyte, hvalue⟩ := digitByte_digitValue b hb
        rw [isDecimalFrom_of_digit hb] at h
        obtain ⟨ds, rest, hds, rfl, htail⟩ := ih _ h
        refine ⟨Text.digitValue b :: ds, rest, List.forall_mem_cons.2 ⟨hvalue, hds⟩, ?_, ?_⟩
        · rw [digitsText_cons, hbyte, List.cons_append]
        · rwa [List.length_cons, ← Nat.add_assoc, Nat.add_right_comm]
      | false =>
        refine ⟨[], b :: t, nofun, rfl, (isDecimalFrom_tail ?_ n point).1 h⟩
        rintro _ ⟨⟩
        exact hb
  · rintro ⟨ds, rest, hds, rfl, htail⟩
    rw [isDecimalFrom_digits hds]
    exact (isDecimalFrom_tail htail.head _ _).2 htail

theorem isDecimalLiteral_iff (t : Text) : isDecimalLiteral t = true ↔ ∃ l : DecimalLiteral, l.text = t := by
  rw [isDecimalLiteral, isDecimalFrom_run]
  have hlength {ds : List Nat} : 0 < ds.length ↔ ds ≠ [] := List.length_pos_iff
  constructor
  · rintro ⟨ds, rest, hds, rfl, ⟨hpos, e, rfl⟩ | ⟨-, rest, rfl, h⟩⟩
    · refine ⟨⟨ds, none, e, by simpa using hds, ?_⟩, rfl⟩
      rw [Nat.zero_add, hlength] at hpos
      simpa using hpos
    · obtain ⟨ds', rest, hds', rfl, ⟨hpos, e, rfl⟩ | ⟨h, -⟩⟩ := (isDecimalFrom_run _ _ _).1 h
      · refine ⟨⟨ds, some ds', e, List.forall_mem_append.2 ⟨hds, hds'⟩, ?_⟩, rfl⟩
        rwa [Nat.zero_add, ← List.length_append, hlength] at hpos
      · cases h
  · rintro ⟨l, rfl⟩
    have hdigit := List.forall_mem_append.1 l.digit
    have hpos := hlength.2 l.ne_nil
    refine ⟨l.whole, _, hdigit.1, rfl, ?_⟩
    cases hf : l.fraction with
    | none =>
      rw [hf, Option.getD_none, List.append_nil] at hpos
      exact .inl ⟨by omega, l.exponent, rfl⟩
    | some ds =>
      rw [hf] at hdigit hpos
      refine .inr ⟨rfl, _, rfl, (isDecimalFrom_run _ _ _).2 ⟨ds, _, hdigit.2, rfl, .inl ⟨?_, _, rfl⟩⟩⟩
      rw [Option.getD_some, List.length_append] at hpos
      omega

/-! ## Reading -/

namespace Double

theorem readSignificand_digits {ds : List Nat} (h : ∀ d ∈ ds, d < 10) (point : Bool) (acc : Significand)
    (rest : Text) :
    readSignificand false point acc (digitsText ds ++ rest) =
      readSignificand false point
        { acc with
          value := acc.value * 10 ^ ds.length + numberOf ds
          fraction := if point then acc.fraction + ds.length else acc.fraction
          any := acc.any || !ds.isEmpty } rest := by
  induction ds generalizing acc with
  | nil => simp [digitsText, numberOf]
  | cons d ds ih =>
    obtain ⟨hd, hds⟩ := List.forall_mem_cons.1 h
    obtain ⟨hdigit, hvalue⟩ := digitByte_read hd
    obtain ⟨-, hmark, hpoint, -⟩ := isDigit_facts _ hdigit
    rw [digitsText_cons, List.cons_append, readSignificand, if_neg (by simpa using hmark),
      if_neg (by simpa using hpoint), hdigit, if_pos rfl, hvalue]
    dsimp only
    rw [ih hds, numberOf_cons]
    refine congrArg (readSignificand false point · rest) ?_
    rw [Significand.mk.injEq]
    refine ⟨?_, ?_, by simp, rfl⟩
    · simp only [Bool.false_eq_true, if_false, List.length_cons, Nat.pow_succ]
      ring
    · cases point
      · rfl
      · simp only [if_true, List.length_cons]
        omega

theorem readExponent_digits {ds : List Nat} (h : ∀ d ∈ ds, d < 10) (acc : Nat)
    (hsmall : acc * 10 ^ ds.length + numberOf ds < 100000) :
    readExponent acc (digitsText ds) = (acc * 10 ^ ds.length + numberOf ds, []) := by
  induction ds generalizing acc with
  | nil => simp [digitsText, numberOf, readExponent]
  | cons d ds ih =>
    obtain ⟨hd, hds⟩ := List.forall_mem_cons.1 h
    obtain ⟨hdigit, hvalue⟩ := digitByte_read hd
    obtain ⟨-, hmark, -⟩ := isDigit_facts _ hdigit
    have hnext : acc * 10 ^ (d :: ds).length + numberOf (d :: ds) =
        (acc * 10 + d) * 10 ^ ds.length + numberOf ds := by
      rw [numberOf_cons, List.length_cons, Nat.pow_succ]
      ring
    have hacc : acc < 10000 := by
      by_contra hlarge
      have := Nat.mul_le_mul_right (10 ^ ds.length) (show 100000 ≤ acc * 10 + d by omega)
      have := Nat.pow_pos (n := ds.length) (show 0 < 10 by decide)
      omega
    rw [hnext] at hsmall ⊢
    rw [digitsText_cons, readExponent, if_neg (by simpa using hmark), if_pos hdigit, if_pos hacc, hvalue,
      ih hds _ hsmall]

theorem isWord_eq_false {word : Text} {b c : UInt8} {rest : Text} (hword : word.head? = some c)
    (hb : Text.lower b ≠ c) : isWord word (b :: rest) = false := by
  refine beq_eq_false_iff_ne.2 ?_
  rintro rfl
  exact hb (Option.some.inj hword)

theorem contains_mark {t : Text} (h : ∀ b ∈ t, Double.isNumeric b = true) : t.contains 0x5f = false := by
  rw [List.contains_eq_mem, decide_eq_false_iff_not]
  exact fun hmem => (isNumeric_facts _ (h _ hmem)).2.1 rfl

end Double

theorem NumeralSign.splitSign_eq (sign : NumeralSign) {b : UInt8} (rest : Text)
    (hb : b ≠ 0x2b ∧ b ≠ 0x2d) :
    ∃ signed, splitSign (sign.text ++ b :: rest) = (signed, sign.negative, b :: rest) ∧
      (signed = false → sign = .none) := by
  cases sign with
  | plus | minus => exact ⟨_, rfl, nofun⟩
  | none =>
    refine ⟨false, ?_, fun _ => rfl⟩
    rw [text, List.nil_append]
    unfold splitSign
    split
    · next heq => exact absurd (List.cons.inj heq).1 hb.1
    · next heq => exact absurd (List.cons.inj heq).1 hb.2
    · rfl

namespace DecimalLiteral

variable (l : DecimalLiteral)

theorem exists_cons : ∃ b rest, l.text = b :: rest ∧ (Text.isDigit b = true ∨ b = 0x2e) := by
  have hdigit := (List.forall_mem_append.1 l.digit).1
  rw [text]
  cases hw : l.whole with
  | cons d ds => exact ⟨_, _, rfl, .inl (isDigit_digitByte (hdigit d (hw ▸ List.mem_cons_self)))⟩
  | nil =>
    cases hf : l.fraction with
    | none =>
      have hne := l.ne_nil
      rw [hw, hf] at hne
      exact absurd rfl hne
    | some ds => exact ⟨_, _, rfl, .inr rfl⟩

theorem isNumeric_sign (sign : NumeralSign) : ∀ b ∈ sign.text, Double.isNumeric b = true := by
  intro b hb
  cases sign with
  | none => cases hb
  | plus | minus =>
    rw [List.mem_singleton.1 hb]
    rfl

theorem isNumeric_text : ∀ b ∈ l.text, Double.isNumeric b = true := by
  have hdigit := List.forall_mem_append.1 l.digit
  refine List.forall_mem_append.2
    ⟨isNumeric_digitsText hdigit.1, List.forall_mem_append.2 ⟨?_, ?_⟩⟩
  · cases hf : l.fraction with
    | none => exact nofun
    | some ds =>
      rw [hf] at hdigit
      exact List.forall_mem_cons.2 ⟨by decide, isNumeric_digitsText hdigit.2⟩
  · cases l.exponent with
    | none => exact nofun
    | some e =>
      refine List.forall_mem_cons.2 ⟨?_, List.forall_mem_append.2
        ⟨isNumeric_sign e.sign, isNumeric_digitsText e.digit⟩⟩
      rcases e.mark_cases with h | h <;> rw [h] <;> decide

theorem readSignificand_eq :
    readSignificand false false ⟨0, 0, false, []⟩ l.text =
      ⟨numberOf l.digits, (l.fraction.getD []).length, true, exponentText l.exponent⟩ := by
  have hdigit := List.forall_mem_append.1 l.digit
  have hany : (!l.whole.isEmpty || !(l.fraction.getD []).isEmpty) = true := by
    have hne := l.ne_nil
    rw [ne_eq, List.append_eq_nil_iff, not_and_or] at hne
    simpa using hne
  have hend (point : Bool) (acc : Significand) :
      readSignificand false point acc (exponentText l.exponent) =
        { acc with rest := exponentText l.exponent } := by
    cases l.exponent with
    | none => rfl
    | some e =>
      rcases e.mark_cases with h | h <;> rw [exponentText, LiteralExponent.text, h] <;> rfl
  rw [text, readSignificand_digits hdigit.1, digits, numberOf_append]
  cases hf : l.fraction with
  | none =>
    rw [hf] at hany
    rw [pointText, List.nil_append, hend]
    simpa [numberOf] using hany
  | some ds =>
    rw [hf, Option.getD_some] at hany hdigit
    rw [pointText, List.cons_append, readSignificand, if_neg (by decide), if_pos (by decide),
      if_neg Bool.false_ne_true, Option.getD_some, readSignificand_digits hdigit.2, hend]
    simpa using hany

theorem readOptionalExponent_eq (h : l.power.natAbs < 100000) :
    readOptionalExponent 0x65 false (exponentText l.exponent) = some (l.power, []) := by
  cases he : l.exponent with
  | none =>
    rw [power, he]
    rfl
  | some e =>
    have hpower : l.power = e.value := by rw [power, he]; rfl
    have hnatAbs : e.value.natAbs = numberOf e.digits := by
      rw [LiteralExponent.value]
      split <;> simp
    rw [hpower, hnatAbs] at h
    have hread := readExponent_digits e.digit 0 (by rwa [Nat.zero_mul, Nat.zero_add])
    rw [Nat.zero_mul, Nat.zero_add] at hread
    obtain ⟨d, ds, hcons⟩ := List.exists_cons_of_ne_nil e.ne_nil
    have hdigit := isDigit_digitByte (e.digit d (hcons ▸ List.mem_cons_self))
    have hmark : (Text.lower e.mark == 0x65) = true := by
      rcases e.mark_cases with h | h <;> rw [h] <;> decide
    have hbyte := isDigit_facts _ hdigit
    rw [hcons, digitsText_cons, ← hcons] at hread
    have htext : exponentText (some e) = e.mark :: (e.sign.text ++ digitByte d :: digitsText ds) := by
      rw [exponentText, LiteralExponent.text, hcons, digitsText_cons]
    obtain ⟨_, hsplit, -⟩ :=
      e.sign.splitSign_eq (digitsText ds) ⟨hbyte.2.2.2.1, hbyte.2.2.2.2.1⟩
    rw [htext, readOptionalExponent, if_pos hmark, hsplit]
    dsimp only
    rw [if_pos hdigit, hread, hpower, LiteralExponent.value]

def pattern : Nat := if numberOf l.digits = 0 then 0 else ofDecimal (numberOf l.digits) l.scale

theorem splitBase_text : splitBase l.text = (false, l.text) := by
  unfold splitBase
  split
  · next c d r heq =>
    have hc : c ∈ l.text := heq ▸ by simp
    rw [if_neg (by simpa using (isNumeric_facts c (l.isNumeric_text c hc)).2.2.1)]
  · rfl

theorem isWord_text : isWord (Text.ofString "inf") l.text = false ∧
    isWord (Text.ofString "infinity") l.text = false ∧ isWord (Text.ofString "nan") l.text = false := by
  obtain ⟨b, rest, hcons, hb⟩ := l.exists_cons
  have hletters : Text.lower b ≠ 0x69 ∧ Text.lower b ≠ 0x6e := by
    rcases hb with hb | rfl
    · exact (isDigit_facts b hb).2.2.2.2.2.2
    · decide
  rw [hcons]
  exact ⟨isWord_eq_false (by decide) hletters.1, isWord_eq_false (by decide) hletters.1,
    isWord_eq_false (by decide) hletters.2⟩

theorem trim_text (sign : NumeralSign) : Text.trim (sign.text ++ l.text) = sign.text ++ l.text := by
  obtain ⟨b, rest, hcons, -⟩ := l.exists_cons
  refine (Listing.isWord_of_symbols ?_ ?_).isTrimmed.trim_eq
  · rw [hcons]
    exact List.append_ne_nil_of_right_ne_nil _ (List.cons_ne_nil _ _)
  · exact fun b hb => (isNumeric_facts b (List.forall_mem_append.2
      ⟨isNumeric_sign sign, l.isNumeric_text⟩ b hb)).1

theorem exists_cons_unsigned : ∃ b rest, l.text = b :: rest ∧ b ≠ 0x2b ∧ b ≠ 0x2d := by
  obtain ⟨b, rest, hcons, hb⟩ := l.exists_cons
  refine ⟨b, rest, hcons, ?_⟩
  rcases hb with hb | rfl
  · exact ⟨(isDigit_facts b hb).2.2.2.1, (isDigit_facts b hb).2.2.2.2.1⟩
  · decide

theorem parse_eq (sign : NumeralSign) (h : l.power.natAbs < 100000) :
    parse (sign.text ++ l.text) =
      if l.pattern = infinityMagnitude then .error .outOfRange
      else .ok (ofMagnitude sign.negative l.pattern) := by
  obtain ⟨b, rest, hcons, hb⟩ := l.exists_cons_unsigned
  obtain ⟨signed, hsplit, -⟩ := sign.splitSign_eq rest hb
  rw [← hcons] at hsplit
  obtain ⟨hinf, hinfinity, hnan⟩ := l.isWord_text
  have hmarks : (sign.text ++ l.text).contains 0x5f = false :=
    contains_mark (List.forall_mem_append.2 ⟨isNumeric_sign sign, l.isNumeric_text⟩)
  rw [parse, hsplit]
  dsimp only
  rw [hinf, hinfinity, hnan, Bool.or_false, if_neg Bool.false_ne_true, Bool.and_false,
    if_neg Bool.false_ne_true, l.splitBase_text]
  dsimp only
  rw [l.readSignificand_eq]
  dsimp only
  rw [if_neg (by decide), if_neg Bool.false_ne_true, l.readOptionalExponent_eq h]
  dsimp only
  rw [if_neg (by decide), hmarks, Bool.false_and, if_neg Bool.false_ne_true, if_neg Bool.false_ne_true]
  rfl

end DecimalLiteral

/-! ## Numbers of texts -/

/-- The number of what follows a sign. -/
theorem decimalNumber_sign (read : Text → Double × Option NumeralFault) (sign : NumeralSign) {body : Text}
    (hbody : ∀ b ∈ body.head?, b ≠ 0x2b ∧ b ≠ 0x2d) :
    decimalNumber read (sign.text ++ body) =
      if body = Text.ofString "Infinity" then signedInfinity sign.negative
      else if isDecimalLiteral body then acceptedNumber (read (sign.text ++ body))
      else nan := by
  have hstop : body.dropWhile (fun b => b == 0x2b || b == 0x2d) = body := by
    cases body with
    | nil => rfl
    | cons b rest => exact List.dropWhile_cons_of_neg (by simpa using hbody b rfl)
  have hdrop : (sign.text ++ body).dropWhile (fun b => b == 0x2b || b == 0x2d) = body := by
    cases sign with
    | none => exact hstop
    | plus | minus =>
      rw [NumeralSign.text, List.singleton_append, List.dropWhile_cons_of_pos (by decide)]
      exact hstop
  have hlength : ¬ 1 < (sign.text ++ body).length - body.length := by
    cases sign <;> simp [NumeralSign.text]
  have hminus : decide ((sign.text ++ body).head? = some 0x2d) = sign.negative := by
    cases sign with
    | plus | minus => rfl
    | none => exact decide_eq_false fun h => (hbody _ h).2 rfl
  rw [decimalNumber, hdrop, if_neg hlength, hminus]

/-- A literal is no hexadecimal numeral: the number is what its reader makes of it. -/
theorem trimmedNumber_literal (read : Text → Double × Option NumeralFault) (sign : NumeralSign)
    (l : DecimalLiteral) :
    trimmedNumber read (sign.text ++ l.text) = acceptedNumber (read (sign.text ++ l.text)) := by
  obtain ⟨b, rest, hcons, hb⟩ := l.exists_cons_unsigned
  have hnumeric : ∀ b ∈ sign.text ++ l.text, Double.isNumeric b = true :=
    List.forall_mem_append.2 ⟨DecimalLiteral.isNumeric_sign sign, l.isNumeric_text⟩
  have hinfinity : l.text ≠ Text.ofString "Infinity" := by
    intro heq
    have hmem : (0x49 : UInt8) ∈ l.text := by
      rw [heq]
      decide
    exact absurd (l.isNumeric_text _ hmem) (by decide)
  have hnumber : decimalNumber read (sign.text ++ l.text) =
      acceptedNumber (read (sign.text ++ l.text)) := by
    rw [decimalNumber_sign read sign (by rw [hcons]; rintro _ ⟨⟩; exact hb), if_neg hinfinity,
      if_pos ((isDecimalLiteral_iff _).2 ⟨l, rfl⟩)]
  unfold trimmedNumber
  split
  · next heq => exact absurd (List.append_eq_nil_iff.1 heq).2 (by rw [hcons]; exact List.cons_ne_nil _ _)
  · next x d r heq =>
    have hx := isNumeric_facts x (hnumeric x (by rw [heq]; simp))
    rw [if_neg (by simp [hx.2.2.2]), ← heq, hnumber]
  · exact hnumber

end RegisterJit
