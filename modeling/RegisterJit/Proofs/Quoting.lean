import RegisterJit.Proofs.Glyphs
import RegisterJit.Text.Quote

/-!
# Quoted texts read back

What stands between the quotes of a quoted text is escaped: a quote or a backslash occurs only after a
backslash, and a line feed not at all. Reading takes the characters one by one and gives the text back.

`IsEscaped` describes the text between quotes by its bytes: what follows a backslash is taken as it is, and
neither a quote nor a line feed occurs otherwise. The writer escapes characters one by one, and for each way in
which it does there is a lemma that the reader takes it back; a byte that belongs to no character is written by
its number. The two go together by induction on the characters of the text (`Glyphs`). `Lexemes` needs that a
quoted text ends where its quotes do and is one piece of a line.
-/

namespace RegisterJit.Text

/-! ## Numbers of characters -/

theorem toNat_of_isContinuation {b : UInt8} (h : isContinuation b = true) :
    b.toNat = 0x80 + payload b := by
  have hmask (n : Fin 256) : n.val &&& 0xc0 = 0x80 → n.val = 0x80 + n.val % 64 := by
    revert n
    decide +kernel
  refine hmask ⟨b.toNat, b.toNat_lt⟩ ?_
  rw [isContinuation, beq_iff_eq] at h
  exact congrArg UInt8.toNat h

theorem toUInt8_eq {n : Nat} {b : UInt8} (h : n = b.toNat) : n.toUInt8 = b := by
  rw [h, Nat.toUInt8_eq, UInt8.ofNat_toNat]

theorem readChar_encode {b : UInt8} {x : Text} {v : Nat} (h : ∀ z, readChar b (x ++ z) = (some v, z)) :
    encodeChar v = b :: x ∧ isScalar v = true := by
  have hb := b.toNat_lt
  have hread := h []
  rw [List.append_nil] at hread
  have hpayload (c : UInt8) : payload c < 64 := Nat.mod_lt _ (by decide)
  unfold readChar at hread
  split at hread
  · rename_i hlt
    have hlt : b.toNat < 128 := hlt
    simp only [Prod.mk.injEq, Option.some.injEq] at hread
    rw [hread.2, ← hread.1, encodeChar, if_pos hlt, toUInt8_eq rfl, isScalar]
    simp
    omega
  split at hread
  · rename_i hlead
    have h1 : 0xc2 ≤ b.toNat := hlead.1
    have h2 : b.toNat ≤ 0xdf := hlead.2
    split at hread
    · rename_i c r
      split at hread
      · rename_i hc
        have hcn := toNat_of_isContinuation hc
        have hcp := hpayload c
        simp only [Prod.mk.injEq, Option.some.injEq] at hread
        obtain ⟨rfl, rfl⟩ := hread
        refine ⟨?_, by rw [isScalar]; simp; omega⟩
        rw [encodeChar, if_neg (by omega), if_pos (by omega), toUInt8_eq (b := b) (by omega),
          toUInt8_eq (b := c) (by omega)]
      · cases hread
    · cases hread
  split at hread
  · rename_i hlead
    have h1 : 0xe0 ≤ b.toNat := hlead.1
    have h2 : b.toNat ≤ 0xef := hlead.2
    split at hread
    · rename_i c d r
      dsimp only at hread
      split at hread
      · rename_i hc
        obtain ⟨hc, hd, hmin, hsurrogate⟩ := hc
        have hcn := toNat_of_isContinuation hc
        have hdn := toNat_of_isContinuation hd
        have hcp := hpayload c
        have hdp := hpayload d
        simp only [Prod.mk.injEq, Option.some.injEq] at hread
        obtain ⟨rfl, rfl⟩ := hread
        refine ⟨?_, by rw [isScalar]; simp; omega⟩
        rw [encodeChar, if_neg (by omega), if_neg (by omega), if_neg hsurrogate, if_pos (by omega),
          toUInt8_eq (b := b) (by omega), toUInt8_eq (b := c) (by omega),
          toUInt8_eq (b := d) (by omega)]
      · cases hread
    · cases hread
  split at hread
  · rename_i hlead
    have h1 : 0xf0 ≤ b.toNat := hlead.1
    have h2 : b.toNat ≤ 0xf4 := hlead.2
    split at hread
    · rename_i c d e r
      dsimp only at hread
      split at hread
      · rename_i hc
        obtain ⟨hc, hd, he, hmin, hmax⟩ := hc
        have hcn := toNat_of_isContinuation hc
        have hdn := toNat_of_isContinuation hd
        have hen := toNat_of_isContinuation he
        have hcp := hpayload c
        have hdp := hpayload d
        have hep := hpayload e
        simp only [Prod.mk.injEq, Option.some.injEq] at hread
        obtain ⟨rfl, rfl⟩ := hread
        refine ⟨?_, by rw [isScalar]; simp; omega⟩
        rw [encodeChar, if_neg (by omega), if_neg (by omega), if_neg (by omega), if_neg (by omega),
          if_pos hmax, toUInt8_eq (b := b) (by omega), toUInt8_eq (b := c) (by omega),
          toUInt8_eq (b := d) (by omega), toUInt8_eq (b := e) (by omega)]
      · cases hread
    · cases hread
  · cases hread

/-! ## Hexadecimal digits -/

theorem hexValue?_hexDigit {n : Nat} (h : n < 16) : hexValue? (hexDigit n) = some n := by
  have hall (n : Fin 16) : hexValue? (hexDigit n.val) = some n.val := by
    revert n
    decide +kernel
  exact hall ⟨n, h⟩

theorem readHex_hexPadded (width : Nat) {n : Nat} (h : n < 16 ^ width) (more acc : Nat)
    (rest : Text) : readHex (width + more) acc (hexPadded width n ++ rest) =
      readHex more (acc * 16 ^ width + n) rest := by
  induction width generalizing n more rest with
  | zero =>
    obtain rfl : n = 0 := by simpa using h
    rw [hexPadded, List.nil_append, Nat.pow_zero, Nat.mul_one, Nat.add_zero, Nat.zero_add]
  | succ width ih =>
    have hdiv : n / 16 < 16 ^ width := by
      rw [Nat.pow_succ] at h
      omega
    rw [hexPadded, List.append_assoc, Nat.add_right_comm, Nat.add_assoc, ih hdiv,
      List.singleton_append, readHex, hexValue?_hexDigit (Nat.mod_lt _ (by decide)), Option.bind_some]
    congr 1
    rw [Nat.pow_succ, ← Nat.mul_assoc]
    omega

theorem readHex_all (width : Nat) {n : Nat} (h : n < 16 ^ width) (rest : Text) :
    readHex width 0 (hexPadded width n ++ rest) = some (n, rest) := by
  have hread := readHex_hexPadded width h 0 0 rest
  rwa [readHex, Nat.zero_mul, Nat.zero_add] at hread

theorem hexDigit_of_mem {width n : Nat} {b : UInt8} (h : b ∈ hexPadded width n) :
    ∃ d < 16, b = hexDigit d := by
  induction width generalizing n with
  | zero => simp [hexPadded] at h
  | succ width ih =>
    rw [hexPadded, List.mem_append, List.mem_singleton] at h
    rcases h with h | rfl
    · exact ih h
    · exact ⟨_, Nat.mod_lt _ (by decide), rfl⟩

/-! ## What stands between quotes -/

/-- A text between quotes: a quote or a backslash comes after a backslash, and there is no line
feed. -/
inductive IsEscaped : Text → Prop
  | nil : IsEscaped []
  | plain {b : UInt8} {t : Text} (quote : b ≠ quoteMark) (escape : b ≠ backslash) (line : b ≠ 0x0a)
      (rest : IsEscaped t) : IsEscaped (b :: t)
  | pair {b : UInt8} {t : Text} (line : b ≠ 0x0a) (rest : IsEscaped t) : IsEscaped (backslash :: b :: t)

theorem IsEscaped.append {t u : Text} (h : IsEscaped t) (h' : IsEscaped u) : IsEscaped (t ++ u) := by
  induction h with
  | nil => exact h'
  | plain hquote hescape hline _ ih => exact .plain hquote hescape hline ih
  | pair hline _ ih => exact .pair hline ih

theorem IsEscaped.of_plain {t : Text}
    (h : ∀ b ∈ t, b ≠ quoteMark ∧ b ≠ backslash ∧ b ≠ 0x0a) : IsEscaped t := by
  induction t with
  | nil => exact .nil
  | cons b t ih =>
    obtain ⟨⟨hquote, hescape, hline⟩, hrest⟩ := List.forall_mem_cons.1 h
    exact .plain hquote hescape hline (ih hrest)

theorem IsEscaped.not_mem_line {t : Text} (h : IsEscaped t) : 0x0a ∉ t := by
  induction h with
  | nil => simp
  | plain _ _ hline _ ih => simp [ih, hline.symm]
  | pair hline _ ih => simp [ih, hline.symm, backslash]

theorem isEscaped_hexPadded (width n : Nat) : IsEscaped (hexPadded width n) := by
  have hdigit (d : Fin 16) : hexDigit d.val ≠ quoteMark ∧ hexDigit d.val ≠ backslash ∧
      hexDigit d.val ≠ 0x0a := by
    revert d
    decide +kernel
  refine .of_plain fun b hb => ?_
  obtain ⟨d, hd, rfl⟩ := hexDigit_of_mem hb
  exact hdigit ⟨d, hd⟩

theorem isEscaped_numbered (letter : UInt8) (width n : Nat) (h : letter ≠ 0x0a) :
    IsEscaped ([backslash, letter] ++ hexPadded width n) := .pair h (isEscaped_hexPadded width n)

theorem le_of_mem_encodeChar {v : Nat} (h : 0x80 ≤ v) {b : UInt8} (hb : b ∈ encodeChar v) :
    0x80 ≤ b := by
  have hbyte {n : Nat} (h1 : 0x80 ≤ n) (h2 : n < 0x100) : (0x80 : UInt8) ≤ n.toUInt8 := by
    rw [UInt8.le_iff_toNat_le, Nat.toUInt8_eq, UInt8.toNat_ofNat', Nat.mod_eq_of_lt h2]
    exact h1
  unfold encodeChar at hb
  rw [if_neg (by omega)] at hb
  repeat' split at hb
  all_goals simp only [List.mem_cons, List.not_mem_nil, or_false] at hb
  · rcases hb with rfl | rfl <;> exact hbyte (by omega) (by omega)
  · rcases hb with rfl | rfl | rfl <;> decide
  · rcases hb with rfl | rfl | rfl <;> exact hbyte (by omega) (by omega)
  · rcases hb with rfl | rfl | rfl | rfl <;> exact hbyte (by omega) (by omega)
  · rcases hb with rfl | rfl | rfl <;> decide

theorem plain_of_printable {v : Nat} (hquote : v ≠ quoteMark.toNat) (hescape : v ≠ 0x5c)
    (hprint : isPrintable v = true) {b : UInt8} (hb : b ∈ encodeChar v) :
    b ≠ quoteMark ∧ b ≠ backslash ∧ b ≠ 0x0a := by
  by_cases hlt : v < 0x80
  · rw [encodeChar, if_pos hlt, List.mem_singleton] at hb
    have hn : b.toNat = v := by
      rw [hb, Nat.toUInt8_eq, UInt8.toNat_ofNat', Nat.mod_eq_of_lt (by omega)]
    refine ⟨fun h => hquote (by rw [← hn, h]), fun h => hescape (by rw [← hn, h]; rfl), fun h => ?_⟩
    rw [h] at hn
    rw [← hn] at hprint
    exact absurd hprint (by decide)
  · have hge : (0x80 : Nat) ≤ b.toNat := le_of_mem_encodeChar (by omega) hb
    refine ⟨?_, ?_, ?_⟩ <;> rintro rfl <;> exact absurd hge (by decide)

theorem controlLetter?_some {v : Nat} {letter : UInt8} (h : controlLetter? v = some letter) :
    v < 0x20 ∧ letter ≠ 0x0a ∧ ∀ rest, readEscape letter rest = some ([v.toUInt8], rest) := by
  unfold controlLetter? at h
  split at h <;> cases h <;> exact ⟨by decide, by decide, fun _ => rfl⟩

theorem isEscaped_escapeScalar (v : Nat) : IsEscaped (escapeScalar v) := by
  unfold escapeScalar
  cases hletter : controlLetter? v with
  | some letter => exact .pair (controlLetter?_some hletter).2.1 .nil
  | none =>
    dsimp only
    split
    · exact isEscaped_numbered 0x78 2 v (by decide)
    · split
      · exact isEscaped_numbered 0x75 4 v (by decide)
      · exact isEscaped_numbered 0x55 8 v (by decide)

theorem isEscaped_quoteScalar (ascii : Bool) (v : Nat) :
    IsEscaped (quoteScalar quoteMark ascii v) := by
  unfold quoteScalar
  split
  · rename_i h
    rcases h with rfl | rfl <;> exact .pair (by decide) .nil
  · rename_i h
    rw [not_or] at h
    split
    · rename_i hprint
      rw [Bool.and_eq_true] at hprint
      exact .of_plain fun b hb => plain_of_printable h.1 h.2 hprint.1 hb
    · exact isEscaped_escapeScalar v

theorem isEscaped_quoteGlyph (ascii : Bool) (g : Glyph) : IsEscaped (quoteGlyph ascii g) := by
  unfold quoteGlyph
  split
  · induction g.bytes with
    | nil => exact .nil
    | cons b bytes ih => exact (isEscaped_numbered 0x78 2 b.toNat (by decide)).append ih
  · exact isEscaped_quoteScalar ascii _

theorem quote_eq (t : Text) : ∃ body, quote t = quoteMark :: (body ++ [quoteMark]) ∧
    IsEscaped body := by
  refine ⟨(glyphs t).flatMap (quoteGlyph false), by rw [quote, quoteWithin]; rfl, ?_⟩
  induction glyphs t with
  | nil => exact .nil
  | cons g gs ih => exact (isEscaped_quoteGlyph false g).append ih

/-! ## Reading -/

theorem unquoteBody_pair {c : UInt8} {fuel : Nat} {bytes t r : Text}
    (h : readEscape c t = some (bytes, r)) :
    unquoteBody (fuel + 1) (backslash :: c :: t) = (unquoteBody fuel r).map (bytes ++ ·) := by
  rw [unquoteBody, if_neg (by decide), if_neg (by decide), if_pos rfl]
  dsimp only
  rw [h, Option.bind_some]

theorem unquoteBody_plain {b : UInt8} {x : Text} {v fuel : Nat}
    (h : ∀ z, readChar b (x ++ z) = (some v, z)) (hquote : b ≠ quoteMark) (hescape : b ≠ backslash)
    (hline : b ≠ 0x0a) (rest : Text) :
    unquoteBody (fuel + 1) (b :: (x ++ rest)) = (unquoteBody fuel rest).map (b :: x ++ ·) := by
  rw [unquoteBody.eq_def]
  dsimp only
  rw [if_neg hquote, if_neg hline, if_neg hescape, h, Option.getD_some, (readChar_encode h).1]

theorem unquoteBody_scalar {b : UInt8} {x : Text} {v fuel : Nat}
    (h : ∀ z, readChar b (x ++ z) = (some v, z)) (rest : Text) :
    unquoteBody (fuel + 1) (quoteScalar quoteMark false v ++ rest) =
      (unquoteBody fuel rest).map (b :: x ++ ·) := by
  obtain ⟨hencode, hscalar⟩ := readChar_encode h
  have hsmall (hv : v < 0x80) : [v.toUInt8] = b :: x := by rw [← hencode, encodeChar, if_pos hv]
  unfold quoteScalar
  split
  · rename_i hv
    rw [← hsmall (by rcases hv with rfl | rfl <;> decide), List.cons_append, List.singleton_append]
    refine unquoteBody_pair ?_
    rcases hv with rfl | rfl <;> rfl
  · rename_i hspecial
    rw [not_or] at hspecial
    split
    · rename_i hprint
      rw [Bool.and_eq_true] at hprint
      rw [hencode, List.cons_append]
      have hb : b ∈ encodeChar v := by rw [hencode]; exact List.mem_cons_self ..
      obtain ⟨hquote, hescape, hline⟩ := plain_of_printable hspecial.1 hspecial.2 hprint.1 hb
      exact unquoteBody_plain h hquote hescape hline rest
    · unfold escapeScalar
      cases hletter : controlLetter? v with
      | some letter =>
        obtain ⟨hv, -, hread⟩ := controlLetter?_some hletter
        rw [← hsmall (by omega)]
        exact unquoteBody_pair (hread rest)
      | none =>
        dsimp only
        have hmax : v ≤ 0x10ffff := by
          rw [isScalar] at hscalar
          simp only [Bool.or_eq_true, Bool.and_eq_true, decide_eq_true_eq] at hscalar
          omega
        split
        · rw [← hsmall (by omega)]
          refine unquoteBody_pair (c := 0x78) (t := hexPadded 2 v ++ rest) ?_
          rw [readEscape, readHex_all 2 (by omega)]
          rfl
        · split
          · rw [← hencode]
            refine unquoteBody_pair (c := 0x75) (t := hexPadded 4 v ++ rest) ?_
            rw [readEscape, readHex_all 4 (by omega), Option.bind_some]
            dsimp only
            rw [if_pos hscalar]
          · rw [← hencode]
            refine unquoteBody_pair (c := 0x55) (t := hexPadded 8 v ++ rest) ?_
            rw [readEscape, readHex_all 8 (by omega), Option.bind_some]
            dsimp only
            rw [if_pos hscalar]

theorem unquoteBody_quoted (t : Text) {fuel : Nat} (hfuel : (glyphs t).length < fuel) :
    unquoteBody fuel ((glyphs t).flatMap (quoteGlyph false) ++ [quoteMark]) = some t := by
  induction t using glyph_induction generalizing fuel with
  | empty =>
    obtain ⟨fuel, rfl⟩ : ∃ n, fuel = n + 1 := ⟨fuel - 1, by omega⟩
    rw [glyphs_nil, List.flatMap_nil, List.nil_append, unquoteBody, if_pos rfl]
    rfl
  | formed b x v hall _ z ih =>
    obtain ⟨fuel, rfl⟩ : ∃ n, fuel = n + 1 := ⟨fuel - 1, by omega⟩
    rw [glyphs_some hall, List.flatMap_cons, List.append_assoc, quoteGlyph]
    dsimp only
    rw [glyphs_some hall, List.length_cons] at hfuel
    rw [unquoteBody_scalar hall, ih (by omega), Option.map_some, List.cons_append]
  | broken b z hnone ih =>
    obtain ⟨fuel, rfl⟩ : ∃ n, fuel = n + 1 := ⟨fuel - 1, by omega⟩
    rw [glyphs_none hnone, List.flatMap_cons, List.append_assoc, quoteGlyph]
    have hbyte : readEscape 0x78 (hexPadded 2 b.toNat ++
        ((glyphs z).flatMap (quoteGlyph false) ++ [quoteMark])) =
          some ([b], (glyphs z).flatMap (quoteGlyph false) ++ [quoteMark]) := by
      have := b.toNat_lt
      rw [readEscape, readHex_all 2 (by omega), Option.map_some]
      dsimp only
      rw [toUInt8_eq rfl]
    dsimp only
    rw [List.flatMap_singleton, List.append_assoc]
    refine (unquoteBody_pair hbyte).trans ?_
    rw [glyphs_none hnone, List.length_cons] at hfuel
    rw [ih (by omega), Option.map_some, List.singleton_append]

theorem quoteScalar_ne_nil (mark : UInt8) (ascii : Bool) (v : Nat) : quoteScalar mark ascii v ≠ [] := by
  unfold quoteScalar
  split
  · simp
  · split
    · unfold encodeChar
      repeat' split
      all_goals simp
    · unfold escapeScalar
      repeat' split
      all_goals simp

theorem length_glyphs_le (t : Text) :
    (glyphs t).length ≤ ((glyphs t).flatMap (quoteGlyph false)).length := by
  have hall (gs : List Glyph) (h : ∀ g ∈ gs, g.bytes ≠ []) :
      gs.length ≤ (gs.flatMap (quoteGlyph false)).length := by
    induction gs with
    | nil => simp
    | cons g gs ih =>
      obtain ⟨hg, hgs⟩ := List.forall_mem_cons.1 h
      have hpos : 0 < (quoteGlyph false g).length := by
        rw [List.length_pos_iff]
        unfold quoteGlyph
        split
        · obtain ⟨b, bytes, hb⟩ := List.exists_cons_of_ne_nil hg
          simp [hb]
        · exact quoteScalar_ne_nil _ _ _
      have := ih hgs
      rw [List.flatMap_cons, List.length_append, List.length_cons]
      omega
  exact hall _ fun g hg => bytes_ne_nil hg

theorem unquote?_quote (t : Text) : unquote? (quote t) = some t := by
  rw [quote, quoteWithin, List.append_assoc, List.singleton_append, unquote?, if_pos rfl]
  refine unquoteBody_quoted t ?_
  have := length_glyphs_le t
  rw [List.length_append]
  omega

end RegisterJit.Text
