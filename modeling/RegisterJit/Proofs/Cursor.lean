import RegisterJit.Proofs.Acceptance

/-!
# What the stream validator accepts

A stream is well formed if it is a sequence of instructions and every jump reaches an instruction or
the end, its displacement being added as an integer. The validator accepts exactly the well-formed
streams.

A walk over the stream with a position of 32 bits asks for the words one by one and can ask for one
that is not there. Shorter than `2 ^ 31` words, a stream is walked to its end or its first defect
without that, in no more steps than it has words, and the outcome is the verdict of the validator.

`WellFormed` is the grammar, stated without the validator. `Met` collects what a walk has met, starts and jumps,
and `judge` decides on it; `Walk` is the walk with a position that wraps around. `walk_eq` says that for streams
below `2 ^ 31` words the walk is the reading of opcodes from `Acceptance`, by induction on the parts of the
stream, and `judge_eq` that the verdict is about the same boundaries. `validate_iff_wellFormed` is the result,
with jump targets computed as the validator computes them. `Targets` uses the same walk for the table of jump
targets.
-/

namespace RegisterJit

namespace Stream

variable {data : Array Word}

/-! ## Well-formed streams -/

/-- The words of one instruction: an opcode word with no high bits that names the opcode, and as many
operand words as its format has operands. -/
def IsInstruction (op : Opcode) (ws : List Word) : Prop :=
  ∃ w args, ws = w :: args ∧ w.toNat ≤ 0xffff ∧ Opcode.ofNat? w.toNat = some op ∧
    args.length = op.format.length

def wordsOf (parts : List (Opcode × List Word)) : List Word := (parts.map Prod.snd).flatten

/-- A part begins at word `n`, or the parts end there. -/
def Divides (parts : List (Opcode × List Word)) (n : Int) : Prop :=
  ∃ before after, parts = before ++ after ∧ n = (wordsOf before).length

/-- A sequence of instructions, each jump of which reaches an instruction or the end. -/
def WellFormed (data : Array Word) : Prop :=
  ∃ parts : List (Opcode × List Word), data.toList = wordsOf parts ∧
    (∀ part ∈ parts, IsInstruction part.1 part.2) ∧
    ∀ before op ws after, parts = before ++ (op, ws) :: after →
      ∀ (i : Nat) d, op.format[i]? = some .jump → ws[i + 1]? = some d →
        Divides parts ((wordsOf before).length + (Word.i32 d).toInt)

theorem IsInstruction.length_eq {op : Opcode} {ws : List Word} (h : IsInstruction op ws) :
    ws.length = op.length := by
  obtain ⟨w, args, rfl, -, -, hargs⟩ := h
  rw [List.length_cons, hargs, Opcode.length, Nat.add_comm]

theorem IsInstruction.head_eq {op : Opcode} {ws : List Word} (h : IsInstruction op ws) :
    ws[0]? = some (Word.ofOpcode op) := by
  obtain ⟨w, args, rfl, hnarrow, hop, -⟩ := h
  have hw : Word.opcode? w = some op := by
    rw [Word.opcode?, Word.opcodeNumber, Nat.mod_eq_of_lt (by omega), hop]
  rw [List.getElem?_cons_zero, Word.eq_ofOpcode hw hnarrow]

theorem wordsOf_append (parts more : List (Opcode × List Word)) :
    wordsOf (parts ++ more) = wordsOf parts ++ wordsOf more := by simp [wordsOf]

theorem wordsOf_cons (part : Opcode × List Word) (parts : List (Opcode × List Word)) :
    wordsOf (part :: parts) = part.2 ++ wordsOf parts := by simp [wordsOf]

theorem length_wordsOf {parts : List (Opcode × List Word)}
    (h : ∀ part ∈ parts, IsInstruction part.1 part.2) :
    (wordsOf parts).length = extent (parts.map Prod.fst) := by
  induction parts with
  | nil => rfl
  | cons part parts ih =>
    obtain ⟨hpart, hparts⟩ := List.forall_mem_cons.1 h
    rw [wordsOf_cons, List.length_append, hpart.length_eq, ih hparts, List.map_cons, extent]

theorem mem_placed_iff {pos s : Nat} {ops : List Opcode} {op : Opcode} :
    (s, op) ∈ placed pos ops ↔
      ∃ before after, ops = before ++ op :: after ∧ s = pos + extent before := by
  constructor
  · intro h
    induction ops generalizing pos with
    | nil => cases h
    | cons first ops ih =>
      rw [placed, List.mem_cons] at h
      rcases h with h | h
      · cases h
        exact ⟨[], ops, rfl, rfl⟩
      · obtain ⟨before, after, rfl, rfl⟩ := ih h
        exact ⟨first :: before, after, rfl, by rw [extent, Nat.add_assoc]⟩
  · rintro ⟨before, after, rfl, rfl⟩
    rw [placed_append]
    exact List.mem_append_right _ (List.mem_cons_self ..)

theorem exists_split {parts : List (Opcode × List Word)} {before after : List Opcode} {op : Opcode}
    (h : parts.map Prod.fst = before ++ op :: after) :
    ∃ first ws rest, parts = first ++ (op, ws) :: rest ∧ first.map Prod.fst = before := by
  obtain ⟨first, last, rfl, hfirst, hlast⟩ := List.map_eq_append_iff.1 h
  obtain ⟨⟨op', ws⟩, rest, rfl, rfl, -⟩ := List.map_eq_cons_iff.1 hlast
  exact ⟨first, ws, rest, rfl, hfirst⟩

section Parts

variable {parts : List (Opcode × List Word)} (hdata : data.toList = wordsOf parts)
  (hparts : ∀ part ∈ parts, IsInstruction part.1 part.2)

include hdata hparts

theorem size_eq_extent : data.size = extent (parts.map Prod.fst) := by
  rw [← Array.length_toList, hdata, length_wordsOf hparts]

/-- The words of a part are those of the instruction that starts where it does. -/
theorem words_of_part {before after : List (Opcode × List Word)} {op : Opcode} {ws : List Word}
    (h : parts = before ++ (op, ws) :: after) :
    (instructionAt data ((wordsOf before).length, op)).words = ws := by
  have hpart : IsInstruction op ws := hparts (op, ws) (by rw [h]; simp)
  rw [instructionAt, Array.toList_extract, hdata, h, wordsOf_append, wordsOf_cons,
    List.extract_eq_take_drop, Nat.add_sub_cancel_left, List.drop_left, ← hpart.length_eq,
    List.take_left]

theorem spells_of_parts : Spells (parts.map Prod.fst) data := by
  refine ⟨size_eq_extent hdata hparts, fun {s op} hs => ?_⟩
  obtain ⟨before, after, hops, rfl⟩ := mem_placed_iff.1 hs
  obtain ⟨first, ws, rest, hsplit, rfl⟩ := exists_split hops
  have hpart : IsInstruction op ws := hparts (op, ws) (by rw [hsplit]; simp)
  have hfirst : (wordsOf first).length = extent (first.map Prod.fst) :=
    length_wordsOf fun part h => hparts part (by rw [hsplit]; exact List.mem_append_left _ h)
  have hpos : 0 < ws.length := hpart.length_eq ▸ op.length_pos
  rw [← Array.getElem?_toList, hdata, hsplit, wordsOf_append, wordsOf_cons, Nat.zero_add, ← hfirst,
    List.getElem?_append_right (Nat.le_refl _), Nat.sub_self, List.getElem?_append_left hpos,
    hpart.head_eq]

theorem divides_iff {n : Nat} : Divides parts n ↔ Boundary (parts.map Prod.fst) n := by
  constructor
  · rintro ⟨before, after, rfl, hn⟩
    have hbefore : (wordsOf before).length = extent (before.map Prod.fst) :=
      length_wordsOf fun part h => hparts part (List.mem_append_left _ h)
    obtain rfl : n = extent (before.map Prod.fst) := by omega
    rw [List.map_append]
    cases after with
    | nil => exact .inr (by simp)
    | cons part after =>
      exact .inl ⟨part.1, mem_placed_iff.2 ⟨_, after.map Prod.fst, rfl, (Nat.zero_add _).symm⟩⟩
  · rintro (⟨op, hop⟩ | rfl)
    · obtain ⟨before, after, hops, rfl⟩ := mem_placed_iff.1 hop
      obtain ⟨first, ws, rest, hsplit, rfl⟩ := exists_split hops
      refine ⟨first, _, hsplit, ?_⟩
      rw [Nat.zero_add, length_wordsOf fun part h =>
        hparts part (by rw [hsplit]; exact List.mem_append_left _ h)]
    · exact ⟨parts, [], (List.append_nil _).symm, by rw [length_wordsOf hparts]⟩

/-- In a stream shorter than `2 ^ 31` a target modulo `2 ^ 32` is a boundary only if the sum is. -/
theorem boundary_target_iff (hsize : data.size < 2 ^ 31) {s : Nat} (hs : s < data.size) (x : Int32) :
    Boundary (parts.map Prod.fst) (s.toUInt32 + x.toUInt32).toNat ↔ Divides parts (s + x.toInt) := by
  have hx : x.toInt = if 2 * x.toUInt32.toNat < 2 ^ 32 then (x.toUInt32.toNat : Int)
      else x.toUInt32.toNat - 2 ^ 32 := BitVec.toInt_eq_toNat_cond ..
  have hlt := x.toUInt32.toNat_lt
  have hsum : (s.toUInt32 + x.toUInt32).toNat = (s + x.toUInt32.toNat) % 2 ^ 32 := by
    rw [UInt32.toNat_add, Nat.toUInt32_eq, UInt32.toNat_ofNat', Nat.mod_add_mod]
  have hextent := size_eq_extent hdata hparts
  rw [hsum]
  constructor
  · intro h
    have hle := h.le_extent
    have hint : (s : Int) + x.toInt = ((s + x.toUInt32.toNat) % 2 ^ 32 : Nat) := by
      rw [hx]
      split <;> omega
    rw [hint, divides_iff hdata hparts]
    exact h
  · intro h
    have ⟨before, after, hsplit, hn⟩ := h
    have hle : (wordsOf before).length ≤ data.size := by
      rw [← Array.length_toList, hdata, hsplit, wordsOf_append, List.length_append]
      omega
    have hnat : (s + x.toUInt32.toNat) % 2 ^ 32 = (wordsOf before).length := by
      rw [hx] at hn
      split at hn <;> omega
    rw [hnat, ← divides_iff hdata hparts]
    exact hn ▸ h

/-- The jumps of the parts reach boundaries exactly if those of the instructions read do. -/
theorem jumps_iff (hsize : data.size < 2 ^ 31) :
    (∀ before op ws after, parts = before ++ (op, ws) :: after →
      ∀ (i : Nat) d, op.format[i]? = some .jump → ws[i + 1]? = some d →
        Divides parts ((wordsOf before).length + (Word.i32 d).toInt)) ↔
      ∀ ins ∈ instructions data, ∀ t, ins.target? = some t →
        Boundary (parts.map Prod.fst) t.toNat := by
  have hspells := spells_of_parts hdata hparts
  have hstart {before after : List (Opcode × List Word)} {op : Opcode} {ws : List Word}
      (h : parts = before ++ (op, ws) :: after) :
      ((wordsOf before).length, op) ∈ placed 0 (parts.map Prod.fst) := by
    rw [length_wordsOf fun part hp => hparts part (by rw [h]; exact List.mem_append_left _ hp)]
    exact mem_placed_iff.2 ⟨before.map Prod.fst, after.map Prod.fst, by rw [h]; simp,
      (Nat.zero_add _).symm⟩
  have hlt {s : Nat} {op : Opcode} (h : (s, op) ∈ placed 0 (parts.map Prod.fst)) : s < data.size := by
    have := hspells.fits h
    have := op.length_pos
    omega
  constructor
  · intro h ins hins t ht
    obtain ⟨s, op, hp, rfl⟩ := hspells.mem_instructions.1 hins
    obtain ⟨before, after, hops, rfl⟩ := mem_placed_iff.1 hp
    obtain ⟨first, ws, rest, hsplit, rfl⟩ := exists_split hops
    have hfirst : 0 + extent (first.map Prod.fst) = (wordsOf first).length := by
      rw [Nat.zero_add, length_wordsOf fun part hp =>
        hparts part (by rw [hsplit]; exact List.mem_append_left _ hp)]
    rw [hfirst] at hp ht
    obtain ⟨i, hi, rfl⟩ := Instruction.exists_jumpOperand ht
    have hpart : IsInstruction op ws := hparts (op, ws) (by rw [hsplit]; simp)
    have hd : i + 1 < ws.length := by
      have := lt_length_of_format hi
      rw [hpart.length_eq]
      exact Nat.add_comm 1 i ▸ this
    have hoperand : (instructionAt data ((wordsOf first).length, op)).i32 i = Word.i32 ws[i + 1] := by
      rw [Instruction.i32, Instruction.operand, words_of_part hdata hparts hsplit,
        List.getD_eq_getElem?_getD, List.getElem?_eq_getElem hd, Option.getD_some]
    rw [hoperand]
    exact (boundary_target_iff hdata hparts hsize (hlt hp) _).2
      (h first op ws rest hsplit i ws[i + 1] hi (List.getElem?_eq_getElem hd))
  · intro h before op ws after hsplit i d hi hd
    refine (boundary_target_iff hdata hparts hsize (hlt (hstart hsplit)) _).1
      (h _ (hspells.mem_instructions.2 ⟨_, op, hstart hsplit, rfl⟩) _ ?_)
    have hjump : op.jumpOperand? = some i := Opcode.jumpOperand?_of_format hi
    rw [Instruction.target?, show (instructionAt data ((wordsOf before).length, op)).opcode = op from rfl,
      hjump, Option.map_some, Instruction.i32, Instruction.operand, words_of_part hdata hparts hsplit,
      List.getD_eq_getElem?_getD, hd, Option.getD_some]
    rfl

end Parts

theorem Spells.exists_parts {ops : List Opcode} (h : Spells ops data) :
    ∃ parts : List (Opcode × List Word), data.toList = wordsOf parts ∧
      (∀ part ∈ parts, IsInstruction part.1 part.2) ∧ parts.map Prod.fst = ops := by
  refine ⟨(placed 0 ops).map fun p => (p.2, (instructionAt data p).words), ?_, ?_, ?_⟩
  · have hall (pos : Nat) (ops : List Opcode) (hfits : pos + extent ops = data.size) :
        data.toList.drop pos =
          wordsOf ((placed pos ops).map fun p => (p.2, (instructionAt data p).words)) := by
      induction ops generalizing pos with
      | nil => exact List.drop_eq_nil_of_le (by rw [Array.length_toList, ← hfits, extent]; omega)
      | cons op ops ih =>
        rw [extent] at hfits
        rw [placed, List.map_cons, wordsOf_cons, ← ih (pos + op.length) (by omega), instructionAt,
          Array.toList_extract, List.extract_eq_take_drop, Nat.add_sub_cancel_left, ← List.drop_drop]
        exact (List.take_append_drop ..).symm
    exact hall 0 ops (by rw [h.size, Nat.zero_add])
  · intro part hpart
    obtain ⟨⟨s, op⟩, hp, rfl⟩ := List.mem_map.1 hpart
    have hfits := h.fits hp
    have hw := h.word hp
    have hlength : (instructionAt data (s, op)).words.length = op.length := by
      simp only [instructionAt, Array.length_toList, Array.size_extract]
      omega
    have hhead : (instructionAt data (s, op)).words[0]? = some (Word.ofOpcode op) := by
      have hpos := op.length_pos
      simp only [instructionAt, Array.getElem?_toList, Array.getElem?_extract]
      rw [if_pos (by omega), Nat.add_zero, hw]
    dsimp only
    cases hwords : (instructionAt data (s, op)).words with
    | nil => rw [hwords] at hhead; cases hhead
    | cons w args =>
      rw [hwords] at hhead hlength
      cases hhead
      refine ⟨_, args, rfl, ?_, ?_, ?_⟩
      · rw [Word.toNat_ofOpcode]
        exact Nat.le_of_lt_succ op.toNat_lt
      · rw [Word.toNat_ofOpcode, Opcode.ofNat?_toNat]
      · rw [List.length_cons, Opcode.length] at hlength
        omega
  · have hfst (pos : Nat) (ops : List Opcode) : (placed pos ops).map Prod.snd = ops := by
      induction ops generalizing pos with
      | nil => rfl
      | cons op ops ih => rw [placed, List.map_cons, ih]
    rw [List.map_map]
    exact hfst 0 ops

theorem validate_iff_parts (hsize : data.size < 2 ^ 31) :
    validate data = .ok () ↔ WellFormed data := by
  constructor
  · intro h
    obtain ⟨ops, hspells⟩ := exists_spells h
    obtain ⟨parts, hdata, hparts, rfl⟩ := hspells.exists_parts
    exact ⟨parts, hdata, hparts, (jumps_iff hdata hparts hsize).2 (hspells.validate_iff.1 h)⟩
  · rintro ⟨parts, hdata, hparts, hjumps⟩
    exact (spells_of_parts hdata hparts).validate_iff.2 ((jumps_iff hdata hparts hsize).1 hjumps)

/-! ## The walk of a cursor -/

/-- What a walk has met: where instructions start, and the jumps with their targets. -/
structure Met where
  starts : List UInt32
  jumps : List (UInt32 × UInt32)

namespace Met

/-- Every jump must reach a start or the end. -/
def judge (m : Met) (size : Nat) : Except StreamDefect Unit :=
  match m.jumps.find? fun j => j.2 ∉ size.toUInt32 :: m.starts with
  | some j => .error (.badTarget j.1.toNat j.2)
  | none => .ok ()

def start (m : Met) (pos : UInt32) : Met := { m with starts := m.starts ++ [pos] }

def jump (m : Met) (pos target : UInt32) : Met :=
  ⟨m.starts ++ [pos], m.jumps ++ [(pos, target)]⟩

end Met

/-- What a step of a walk comes to. -/
inductive Step
  /-- A word was asked for that is not in the stream. -/
  | outside
  | verdict (v : Except StreamDefect Unit)
  | next (pos : UInt32) (m : Met)

/-- Look at the instruction at a position, which is a number of 32 bits, as are all sums of positions. -/
def step (data : Array Word) (pos : UInt32) (m : Met) : Step :=
  if data.size ≤ pos.toNat then .verdict (m.judge data.size)
  else
    match data[pos.toNat]? with
    | none => .outside
    | some w =>
      match Word.opcode? w with
      | none => .verdict (.error (.invalidOpcode w pos.toNat))
      | some op =>
        if 0xffff < w.toNat then .verdict (.error (.invalidOpcode w pos.toNat))
        else if data.size < (pos + op.length.toUInt32).toNat then
          .verdict (.error (.cutShort op pos.toNat))
        else
          match op.jumpOperand? with
          | none => .next (pos + op.length.toUInt32) (m.start pos)
          | some i =>
            match data[pos.toNat + (i + 1)]? with
            | none => .outside
            | some d =>
              .next (pos + op.length.toUInt32) (m.jump pos (pos + (Word.i32 d).toUInt32))

/-- How a walk over a stream comes out. -/
inductive Walk
  /-- A word was asked for that is not in the stream. -/
  | outside
  /-- The steps that were allowed did not suffice. -/
  | unfinished
  | verdict (v : Except StreamDefect Unit)

/-- Walk over a stream from a position on, with what was met so far, in at most so many steps. -/
def walk (data : Array Word) : (steps : Nat) → (pos : UInt32) → Met → Walk
  | 0, _, _ => .unfinished
  | steps + 1, pos, m =>
    match step data pos m with
    | .outside => .outside
    | .verdict v => .verdict v
    | .next pos m => walk data steps pos m

/-- What is met when instructions are walked over. -/
def metAll (m : Met) (is : List Instruction) : Met :=
  is.foldl (fun m ins =>
    match ins.target? with
    | none => m.start ins.offset.toUInt32
    | some t => m.jump ins.offset.toUInt32 t) m

/-- The verdict on instructions that were read, given what was met before. -/
def verdictOn (data : Array Word) (m : Met) (read : List Instruction × Option StreamFault) :
    Except StreamDefect Unit :=
  match firstWide? read.1 with
  | some d => .error d
  | none =>
    match read.2 with
    | some f => .error (defectOfFault data f)
    | none => (metAll m read.1).judge data.size

theorem length_le (op : Opcode) : op.length ≤ 5 := by
  have hall : ∀ op ∈ Opcode.all, op.length ≤ 5 := by decide +kernel
  exact hall op op.mem_all

theorem toNat_position {pos : Nat} (h : pos < 2 ^ 31) (op : Opcode) :
    (pos.toUInt32 + op.length.toUInt32) = (pos + op.length).toUInt32 ∧
      (pos.toUInt32 + op.length.toUInt32).toNat = pos + op.length := by
  have hlength := length_le op
  have heq : pos.toUInt32 + op.length.toUInt32 = (pos + op.length).toUInt32 := by
    simp [Nat.toUInt32_eq]
  refine ⟨heq, ?_⟩
  rw [heq, Nat.toUInt32_eq, UInt32.toNat_ofNat']
  omega

theorem words_instructionAt {pos : Nat} (op : Opcode) (hlt : pos < data.size) :
    (instructionAt data (pos, op)).words.head? = some data[pos] := by
  have hpos := op.length_pos
  simp only [instructionAt, List.head?_eq_getElem?, Array.getElem?_toList, Array.getElem?_extract]
  rw [if_pos (by omega), Nat.add_zero, Array.getElem?_eq_getElem hlt]

theorem firstWide?_cons {pos : Nat} {op : Opcode} (hlt : pos < data.size) (is : List Instruction) :
    firstWide? (instructionAt data (pos, op) :: is) =
      if 0xffff < data[pos].toNat then some (.invalidOpcode data[pos] pos) else firstWide? is := by
  have hhead := words_instructionAt op hlt
  rw [firstWide?, List.findSome?_cons, wideWord?]
  cases hwords : (instructionAt data (pos, op)).words with
  | nil => rw [hwords] at hhead; cases hhead
  | cons w rest =>
    rw [hwords] at hhead
    obtain rfl := Option.some.inj hhead
    by_cases hwide : data[pos].toNat > 0xffff
    · simp only [if_pos hwide, Option.map_some]
      rfl
    · simp only [if_neg hwide, Option.map_none]
      rfl

theorem step_eq (hsize : data.size < 2 ^ 31) {pos : Nat} (hlt : pos < data.size) {op : Opcode}
    (hop : Word.opcode? data[pos] = some op) (hnarrow : ¬ 0xffff < data[pos].toNat)
    (hfits : pos + op.length ≤ data.size) (m : Met) :
    step data pos.toUInt32 m =
      .next (pos + op.length).toUInt32 (metAll m [instructionAt data (pos, op)]) := by
  obtain ⟨hnext, hnextNat⟩ := toNat_position (show pos < 2 ^ 31 by omega) op
  have hnat : pos.toUInt32.toNat = pos := by
    rw [Nat.toUInt32_eq, UInt32.toNat_ofNat']
    omega
  unfold step
  rw [hnat, if_neg (by omega), Array.getElem?_eq_getElem hlt]
  dsimp only
  rw [hop]
  dsimp only
  rw [if_neg hnarrow, hnextNat, if_neg (by omega), hnext, metAll, List.foldl_cons, List.foldl_nil,
    Instruction.target?, show (instructionAt data (pos, op)).opcode = op from rfl]
  cases hjump : op.jumpOperand? with
  | none => rfl
  | some i =>
    have hi := Instruction.format_of_jumpOperand? hjump
    have hlength := lt_length_of_format hi
    have hoperand : (instructionAt data (pos, op)).operand i = data[pos + (i + 1)] := by
      rw [operand_instructionAt (List.getElem?_eq_some_iff.1 hi).1, Array.getD_eq_getD_getElem?,
        show pos + 1 + i = pos + (i + 1) by omega, Array.getElem?_eq_getElem (by omega),
        Option.getD_some]
    dsimp only
    rw [Array.getElem?_eq_getElem (by omega), Option.map_some, Instruction.i32, hoperand]
    rfl

/-- Reading one instruction in the order in which a walk looks at its words. -/
theorem readOne_eq {pos : Nat} (hlt : pos < data.size) :
    readOne data pos =
      match Word.opcode? data[pos] with
      | none => .error (.badOpcode pos data[pos])
      | some op =>
        if data.size < pos + op.length then .error (.cutShort pos op)
        else .ok (instructionAt data (pos, op)) := by
  have hget : data.getD pos 0 = data[pos] := by
    rw [Array.getD_eq_getD_getElem?, Array.getElem?_eq_getElem hlt, Option.getD_some]
  unfold readOne
  simp only [hget]
  cases Word.opcode? data[pos] <;> rfl

/-- Walking is reading: the walk stays inside the stream and ends with the verdict on what is read. -/
theorem walk_eq (hsize : data.size < 2 ^ 31) {pos steps : Nat} (hpos : pos ≤ data.size)
    (hsteps : data.size - pos < steps) (m : Met) :
    walk data steps pos.toUInt32 m = .verdict (verdictOn data m (readFrom data pos)) := by
  induction steps generalizing pos m with
  | zero => omega
  | succ steps ih =>
    have hnat : pos.toUInt32.toNat = pos := by
      rw [Nat.toUInt32_eq, UInt32.toNat_ofNat']
      omega
    rw [walk]
    by_cases hlt : pos < data.size
    · rw [readFrom, dif_pos hlt, readOne_eq hlt]
      cases hop : Word.opcode? data[pos] with
      | none =>
        rw [step, hnat, if_neg (by omega), Array.getElem?_eq_getElem hlt]
        dsimp only
        rw [hop]
        rfl
      | some op =>
        obtain ⟨hnext, hnextNat⟩ := toNat_position (show pos < 2 ^ 31 by omega) op
        have hstep := op.length_pos
        dsimp only
        by_cases hfits : data.size < pos + op.length
        · rw [if_pos hfits, step, hnat, if_neg (by omega), Array.getElem?_eq_getElem hlt]
          dsimp only
          rw [hop, verdictOn, show firstWide? [] = none from rfl]
          dsimp only
          rw [hnextNat, if_pos hfits, defectOfFault, Array.getD_eq_getD_getElem?,
            Array.getElem?_eq_getElem hlt]
          dsimp only [Option.getD_some]
          by_cases hwide : 0xffff < data[pos].toNat
          · rw [if_pos hwide, if_pos hwide]
          · rw [if_neg hwide, if_neg hwide]
        · rw [if_neg hfits]
          dsimp only
          rw [verdictOn]
          dsimp only
          rw [firstWide?_cons hlt]
          by_cases hwide : 0xffff < data[pos].toNat
          · rw [if_pos hwide, step, hnat, if_neg (by omega), Array.getElem?_eq_getElem hlt]
            dsimp only
            rw [hop]
            dsimp only
            rw [if_pos hwide]
          · rw [if_neg hwide, step_eq hsize hlt hop hwide (by omega)]
            dsimp only
            rw [ih (by omega) (by omega)]
            rfl
    · rw [readFrom, step, hnat, if_pos (by omega), dif_neg hlt]
      rfl

/-! ## The verdict -/

theorem metAll_eq (m : Met) (is : List Instruction) :
    metAll m is =
      ⟨m.starts ++ is.map fun ins => ins.offset.toUInt32,
        m.jumps ++ is.filterMap fun ins => ins.target?.map (ins.offset.toUInt32, ·)⟩ := by
  induction is generalizing m with
  | nil => simp [metAll]
  | cons ins is ih =>
    rw [metAll, List.foldl_cons, ← metAll, ih]
    cases ht : ins.target? with
    | none => simp [Met.start, ht]
    | some t => simp [Met.jump, ht]

/-- On a short stream the jumps that are met are judged like those that are read. -/
theorem judge_eq (hsize : data.size < 2 ^ 31) {is : List Instruction}
    (hstarts : ∀ ins ∈ is, ins.offset < data.size) :
    (metAll ⟨[], []⟩ is).judge data.size =
      match firstBadJump? is data.size with
      | some d => .error d
      | none => .ok () := by
  have hnat {n : Nat} (h : n ≤ data.size) : n.toUInt32.toNat = n := by
    rw [Nat.toUInt32_eq, UInt32.toNat_ofNat']
    omega
  have hmem (t : UInt32) : t ∈ data.size.toUInt32 :: is.map (fun ins => ins.offset.toUInt32) ↔
      t.toNat ∈ is.map (·.offset) ∨ t.toNat = data.size := by
    rw [List.mem_cons, List.mem_map, List.mem_map, or_comm]
    refine or_congr ?_ ?_
    · refine exists_congr fun ins => and_congr_right fun hins => ?_
      rw [← UInt32.toNat_inj, hnat (Nat.le_of_lt (hstarts ins hins))]
    · rw [← UInt32.toNat_inj, hnat (Nat.le_refl _)]
  have hfirst : firstBadJump? is data.size =
      ((metAll ⟨[], []⟩ is).jumps.find? fun j =>
        j.2 ∉ data.size.toUInt32 :: (metAll ⟨[], []⟩ is).starts).map
          fun j => .badTarget j.1.toNat j.2 := by
    rw [metAll_eq, firstBadJump?, List.nil_append, List.nil_append]
    dsimp only
    simp only [hmem]
    generalize is.map (·.offset) = starts
    clear hmem
    induction is with
    | nil => rfl
    | cons ins is ih =>
      obtain ⟨hins, hstarts⟩ := List.forall_mem_cons.1 hstarts
      rw [List.findSome?_cons, List.filterMap_cons]
      cases ht : ins.target? with
      | none => exact ih hstarts
      | some t =>
        dsimp only [Option.map_some]
        rw [List.find?_cons]
        by_cases hin : t.toNat ∈ starts ∨ t.toNat = data.size
        · rw [if_pos hin, decide_eq_false (not_not.2 hin)]
          exact ih hstarts
        · rw [if_neg hin, decide_eq_true hin]
          dsimp only [Option.map_some]
          rw [hnat (Nat.le_of_lt hins)]
  rw [hfirst, Met.judge]
  cases (metAll ⟨[], []⟩ is).jumps.find? _ <;> rfl

/-- Validation is complete and sound for well-formed streams, and is what a cursor comes to that walks
over the stream in 32 bits and never asks for a word outside. -/
theorem validate_iff_wellFormed (data : Array Word) (hsize : data.size < 2 ^ 31) :
    walk data (data.size + 1) 0 ⟨[], []⟩ = .verdict (validate data) ∧
      (validate data = .ok () ↔ WellFormed data) := by
  refine ⟨?_, validate_iff_parts hsize⟩
  rw [show (0 : UInt32) = (0 : Nat).toUInt32 from rfl,
    walk_eq hsize (Nat.zero_le _) (by omega) ⟨[], []⟩, verdictOn, validate, ← read]
  cases hread : read data with
  | mk is fault =>
    dsimp only
    cases hwide : firstWide? is with
    | some d => rfl
    | none =>
      cases fault with
      | some f => rfl
      | none =>
        have hspells : Spells (is.map (·.opcode)) data := by
          obtain ⟨hextent, hwords⟩ := spells_of_readFrom (Nat.zero_le _) hread hwide
          exact ⟨by rw [← hextent, Nat.zero_add], fun h => hwords _ _ h⟩
        have hstarts : ∀ ins ∈ is, ins.offset < data.size := by
          intro ins hins
          have hmem : ins ∈ instructions data := by rwa [instructions, hread]
          obtain ⟨s, op, hp, rfl⟩ := hspells.mem_instructions.1 hmem
          have := hspells.fits hp
          have := op.length_pos
          change s < data.size
          omega
        refine congrArg Walk.verdict ((judge_eq hsize hstarts).trans ?_)
        cases firstBadJump? is data.size <;> rfl

/-- A jump to the end and one back to the start, and a jump into its own operand. -/
theorem validate_iff_wellFormed_jumps :
    WellFormed #[Word.ofOpcode .jumpBy, 4, Word.ofOpcode .jumpBy, 0xfffffffe] ∧
      ¬ WellFormed #[Word.ofOpcode .jumpBy, 1, Word.ofOpcode .nop] := by
  have hreaching := validate_iff_wellFormed
    #[Word.ofOpcode .jumpBy, 4, Word.ofOpcode .jumpBy, 0xfffffffe] (by decide)
  have hastray := validate_iff_wellFormed
    #[Word.ofOpcode .jumpBy, 1, Word.ofOpcode .nop] (by decide)
  have haccepted : (validate #[Word.ofOpcode .jumpBy, 4, Word.ofOpcode .jumpBy, 0xfffffffe]).toBool =
      true := by decide +kernel
  have hrefused : (validate #[Word.ofOpcode .jumpBy, 1, Word.ofOpcode .nop]).toBool = false := by
    decide +kernel
  refine ⟨hreaching.2.1 ?_, fun h => ?_⟩
  · cases hv : validate #[Word.ofOpcode .jumpBy, 4, Word.ofOpcode .jumpBy, 0xfffffffe] with
    | error d => rw [hv] at haccepted; cases haccepted
    | ok u => rfl
  · rw [hastray.2.2 h] at hrefused
    cases hrefused

end Stream

end RegisterJit
