import Mathlib.Data.List.Nodup
import Mathlib.Data.List.Perm.Subperm
import RegisterJit.Proofs.Cursor
import RegisterJit.Proofs.Scanning

/-!
# The table of jump targets is exact

Jumps and handlers mention offsets in some order, an offset perhaps many times. Whatever the order, the table
has one entry for each offset mentioned, marked exactly if a handler mentions it, and the labels of the entries
are among those the scan allocates. An entry loses its label at most once, when a handler mentions the target of
a jump; so the labels of the table, with those of the entries that were replaced, are all that were allocated.

A code is refused exactly if a walk over its stream meets a defect or a handler has no proper range.

`Visits` and `Jumps` describe what a scan meets, by the words of the stream and without labels or tables.
`Exact` relates a table to offsets that jumps and handlers mention; it is kept when a jump mentions an offset,
when a handler does, and when a handler mentions one that has an entry, whose label is then replaced
(`Exact.replace`). `Fails` lists what is wrong with a code that is refused. `Scanning` shows what the emitters
need of the table for formed codes; the theorem here, `targets_exact`, is about every code and every assembler.
-/

namespace RegisterJit

open X86 (Label Assembler)

/-! ## Walking over a stream -/

namespace Stream

variable {data : Array Word}

/-- A whole instruction is at word `pos`. -/
def Stands (data : Array Word) (pos : Nat) (op : Opcode) : Prop :=
  ∃ w, data[pos]? = some w ∧ Word.opcode? w = some op ∧ pos + op.length ≤ data.size

/-- A walk from the start, one whole instruction after the other, comes to word `pos`. -/
inductive Visits (data : Array Word) : Nat → Prop
  | start : Visits data 0
  | next {pos : Nat} {op : Opcode} :
      Visits data pos → Stands data pos op → Visits data (pos + op.length)

/-- A jump that the walk meets goes to word `t`, its displacement being added as an integer. -/
def Jumps (data : Array Word) (t : Int) : Prop :=
  ∃ pos op, Visits data pos ∧ Stands data pos op ∧
    ∃ (i : Nat) (d : Word), op.format[i]? = some .jump ∧ data[pos + 1 + i]? = some d ∧
      t = pos + (Word.i32 d).toInt

/-- The walk meets a word whose low sixteen bits name no opcode, or an instruction that is cut short. -/
inductive Breaks (data : Array Word) : Prop
  | badOpcode {pos : Nat} {w : Word} : Visits data pos → data[pos]? = some w →
      Word.opcode? w = none → Breaks data
  | cutShort {pos : Nat} {w : Word} {op : Opcode} : Visits data pos → data[pos]? = some w →
      Word.opcode? w = some op → data.size < pos + op.length → Breaks data

theorem readFrom_of_stands {pos : Nat} {op : Opcode} (h : Stands data pos op) :
    readFrom data pos =
      (instructionAt data (pos, op) :: (readFrom data (pos + op.length)).1,
        (readFrom data (pos + op.length)).2) := by
  obtain ⟨w, hw, hop, hfits⟩ := h
  obtain ⟨hlt, rfl⟩ := Array.getElem?_eq_some_iff.1 hw
  rw [readFrom, dif_pos hlt, readOne_eq hlt, hop]
  dsimp only
  rw [if_neg (by omega)]
  rfl

theorem stands_of_readOne {pos : Nat} (hlt : pos < data.size) {ins : Instruction}
    (h : readOne data pos = .ok ins) :
    ∃ op, Stands data pos op ∧ ins = instructionAt data (pos, op) := by
  rw [readOne_eq hlt] at h
  split at h
  · cases h
  rename_i op hop
  split at h
  · cases h
  rename_i hfits
  exact ⟨op, ⟨data[pos], Array.getElem?_eq_getElem hlt, hop, Nat.not_lt.1 hfits⟩,
    (Except.ok.inj h).symm⟩

theorem breaks_of_readOne {pos : Nat} (hlt : pos < data.size) (hv : Visits data pos)
    {f : StreamFault} (h : readOne data pos = .error f) : Breaks data := by
  have hword : data[pos]? = some data[pos] := Array.getElem?_eq_getElem hlt
  rw [readOne_eq hlt] at h
  split at h
  · rename_i hop
    exact .badOpcode hv hword hop
  · rename_i op hop
    split at h
    · rename_i hlong
      exact .cutShort hv hword hop hlong
    · cases h

theorem read_of_visits {pos : Nat} (h : Visits data pos) :
    ∃ before, read data = (before ++ (readFrom data pos).1, (readFrom data pos).2) := by
  induction h with
  | start => exact ⟨[], rfl⟩
  | @next pos op _ hs ih =>
    obtain ⟨before, hread⟩ := ih
    rw [readFrom_of_stands hs] at hread
    exact ⟨before ++ [instructionAt data (pos, op)], by rw [hread, List.append_assoc]; rfl⟩

/-- Everything that is read from where the walk comes, and the fault it ends with, the walk meets. -/
theorem visits_of_readFrom {pos : Nat} (h : Visits data pos) :
    (∀ ins ∈ (readFrom data pos).1,
      ∃ s op, Visits data s ∧ Stands data s op ∧ ins = instructionAt data (s, op)) ∧
      ((readFrom data pos).2.isSome → Breaks data) := by
  induction pos using readFrom.induct data with
  | case1 pos hlt f hone =>
    rw [readFrom, dif_pos hlt, hone]
    exact ⟨fun ins hins => absurd hins List.not_mem_nil, fun _ => breaks_of_readOne hlt h hone⟩
  | case2 pos hlt ins hone ih =>
    obtain ⟨op, hstands, rfl⟩ := stands_of_readOne hlt hone
    obtain ⟨hmet, hbreaks⟩ := ih (h.next hstands)
    rw [readFrom_of_stands hstands]
    refine ⟨fun ins hins => ?_, hbreaks⟩
    rcases List.mem_cons.1 hins with rfl | hins
    · exact ⟨pos, op, h, hstands, rfl⟩
    · exact hmet ins hins
  | case3 pos hend =>
    rw [readFrom, dif_neg hend]
    exact ⟨fun ins hins => absurd hins List.not_mem_nil, fun hf => by cases hf⟩

theorem mem_instructions_iff {ins : Instruction} :
    ins ∈ instructions data ↔
      ∃ s op, Visits data s ∧ Stands data s op ∧ ins = instructionAt data (s, op) := by
  refine ⟨(visits_of_readFrom .start).1 ins, ?_⟩
  rintro ⟨s, op, hv, hs, rfl⟩
  obtain ⟨before, hread⟩ := read_of_visits hv
  rw [instructions, hread, readFrom_of_stands hs]
  exact List.mem_append_right _ (List.mem_cons_self ..)

theorem isSome_fault_iff : (read data).2.isSome ↔ Breaks data := by
  refine ⟨(visits_of_readFrom .start).2, fun h => ?_⟩
  cases h with
  | badOpcode hv hw hop =>
    obtain ⟨before, hread⟩ := read_of_visits hv
    obtain ⟨hlt, rfl⟩ := Array.getElem?_eq_some_iff.1 hw
    rw [hread, readFrom, dif_pos hlt, readOne_eq hlt, hop]
    rfl
  | cutShort hv hw hop hlong =>
    obtain ⟨before, hread⟩ := read_of_visits hv
    obtain ⟨hlt, rfl⟩ := Array.getElem?_eq_some_iff.1 hw
    rw [hread, readFrom, dif_pos hlt, readOne_eq hlt, hop]
    dsimp only
    rw [if_pos hlong]
    rfl

/-! ## Targets -/

/-- A target modulo `2 ^ 32` stands for a target as an integer, in a stream of `n` words: one is inside
if the other is, and then they are the same. -/
def Denotes (n : Nat) (u : UInt32) (t : Int) : Prop :=
  (u.toNat ≤ n ↔ 0 ≤ t ∧ t ≤ n) ∧ (u.toNat ≤ n → (u.toNat : Int) = t)

theorem denotes_target {n s : Nat} (hn : n < 2 ^ 31) (hs : s < n) (x : Int32) :
    Denotes n (s.toUInt32 + x.toUInt32) (s + x.toInt) := by
  have hx : x.toInt = if 2 * x.toUInt32.toNat < 2 ^ 32 then (x.toUInt32.toNat : Int)
      else x.toUInt32.toNat - 2 ^ 32 := BitVec.toInt_eq_toNat_cond ..
  have hlt := x.toUInt32.toNat_lt
  have hsum : (s.toUInt32 + x.toUInt32).toNat = (s + x.toUInt32.toNat) % 2 ^ 32 := by
    rw [UInt32.toNat_add, Nat.toUInt32_eq, UInt32.toNat_ofNat', Nat.mod_add_mod]
  rw [Denotes, hsum, hx]
  split <;> constructor <;> omega

theorem target?_instructionAt {s i : Nat} {op : Opcode} (hi : op.format[i]? = some .jump) {d : Word}
    (hd : data[s + 1 + i]? = some d) :
    (instructionAt data (s, op)).target? = some (s.toUInt32 + (Word.i32 d).toUInt32) := by
  have hjump : (instructionAt data (s, op)).opcode.jumpOperand? = some i :=
    Opcode.jumpOperand?_of_format hi
  have hoperand : (instructionAt data (s, op)).operand i = d := by
    rw [operand_instructionAt (List.getElem?_eq_some_iff.1 hi).1, Array.getD_eq_getD_getElem?, hd,
      Option.getD_some]
  rw [Instruction.target?, hjump, Option.map_some, Instruction.i32, hoperand]
  rfl

theorem Stands.lt {s : Nat} {op : Opcode} (h : Stands data s op) : s < data.size := by
  obtain ⟨w, -, -, hfits⟩ := h
  have := op.length_pos
  omega

theorem target_of_jumps (hsize : data.size < 2 ^ 31) {t : Int} (h : Jumps data t) :
    ∃ ins ∈ instructions data, ∃ u, ins.target? = some u ∧ Denotes data.size u t := by
  obtain ⟨s, op, hv, hs, i, d, hi, hd, rfl⟩ := h
  exact ⟨_, mem_instructions_iff.2 ⟨s, op, hv, hs, rfl⟩, _, target?_instructionAt hi hd,
    denotes_target hsize hs.lt _⟩

theorem jumps_of_target (hsize : data.size < 2 ^ 31) {ins : Instruction}
    (hins : ins ∈ instructions data) {u : UInt32} (hu : ins.target? = some u) :
    ∃ t, Jumps data t ∧ Denotes data.size u t := by
  obtain ⟨s, op, hv, hs, rfl⟩ := mem_instructions_iff.1 hins
  obtain ⟨i, hi, -⟩ := Instruction.exists_jumpOperand hu
  change op.format[i]? = some .jump at hi
  have hlength := lt_length_of_format hi
  obtain ⟨-, -, -, hfits⟩ := id hs
  have hd : data[s + 1 + i]? = some (data.getD (s + 1 + i) 0) := by
    rw [Array.getD_eq_getD_getElem?, Array.getElem?_eq_getElem (by omega), Option.getD_some]
  rw [target?_instructionAt hi hd] at hu
  obtain rfl := Option.some.inj hu
  exact ⟨_, ⟨s, op, hv, hs, i, _, hi, hd, rfl⟩, denotes_target hsize hs.lt _⟩

end Stream

/-! ## Entering offsets -/

namespace JumpTable

variable {jumped bounded : UInt32 → Prop} {asm asm' : Assembler} {table : JumpTable}

/-- The table of the offsets of which `jumped` or `bounded` holds, with labels that were allocated since
`asm`. Those labels and the ones of entries that were replaced are all that were allocated. -/
structure Exact (jumped bounded : UInt32 → Prop) (asm : Assembler) (table : JumpTable)
    (asm' : Assembler) : Prop where
  keys : ∀ o, o ∈ table.map (·.offset) ↔ jumped o ∨ bounded o
  handled : ∀ t ∈ table, t.handled = true ↔ bounded t.offset
  offsets : (table.map (·.offset)).Nodup
  labels : ∃ (count : Nat) (replaced : JumpTable), asm' = asm.reserve count ∧
    ((table ++ replaced).map (·.label)).Perm (List.range' asm.labels.size count) ∧
    (replaced.map (·.offset)).Nodup ∧ ∀ t ∈ replaced, jumped t.offset ∧ bounded t.offset

theorem exact_nil (asm : Assembler) : Exact (fun _ => False) (fun _ => False) asm [] asm := by
  refine ⟨by simp, by simp, List.nodup_nil, 0, [], ?_, List.Perm.refl [], List.nodup_nil, by simp⟩
  simp [Assembler.reserve]

def mention (P : UInt32 → Prop) (o : UInt32) (now : Bool) (x : UInt32) : Prop := P x ∨ now = true ∧ x = o

theorem mention_false (P : UInt32 → Prop) (o : UInt32) : mention P o false = P := by
  funext x
  simp [mention]

theorem mention_mono {P : UInt32 → Prop} {o x : UInt32} {now : Bool} (h : P x) : mention P o now x :=
  .inl h

theorem mention_or_mention {o x : UInt32} {handled : Bool} :
    mention jumped o (!handled) x ∨ mention bounded o handled x ↔ (jumped x ∨ bounded x) ∨ x = o := by
  cases handled
  · simp [mention, or_right_comm]
  · simp [mention, or_assoc]

theorem Exact.keep (h : Exact jumped bounded asm table asm') {t : JumpTarget} (ht : t ∈ table)
    {handled : Bool} (hmark : handled = true → t.handled = true) :
    Exact (mention jumped t.offset !handled) (mention bounded t.offset handled) asm table asm' := by
  obtain ⟨count, replaced, hcount, hperm, hnodup, hboth⟩ := h.labels
  refine ⟨fun x => ?_, fun t' ht' => ?_, h.offsets, count, replaced, hcount, hperm, hnodup,
    fun t' ht' => (hboth t' ht').imp mention_mono mention_mono⟩
  · rw [mention_or_mention, ← h.keys, or_iff_left_of_imp]
    rintro rfl
    exact List.mem_map_of_mem ht
  · rw [h.handled t' ht', mention, or_iff_left_of_imp]
    rintro ⟨hhandled, heq⟩
    exact heq ▸ (h.handled t ht).1 (hmark hhandled)

theorem Exact.insert (h : Exact jumped bounded asm table asm') {o : UInt32}
    (hnew : o ∉ table.map (·.offset)) (handled : Bool) :
    Exact (mention jumped o !handled) (mention bounded o handled) asm
      (table ++ [⟨o, asm'.labels.size, handled⟩]) (asm'.reserve 1) := by
  obtain ⟨count, replaced, rfl, hperm, hnodup, hboth⟩ := h.labels
  have hnone : ¬ jumped o ∧ ¬ bounded o := not_or.1 (mt (h.keys o).2 hnew)
  refine ⟨fun x => ?_, fun t ht => ?_, ?_, count + 1, replaced, Scan.reserve_reserve .., ?_, hnodup,
    fun t ht => (hboth t ht).imp mention_mono mention_mono⟩
  · rw [mention_or_mention, ← h.keys, List.map_append, List.mem_append, List.map_singleton,
      List.mem_singleton]
  · rcases List.mem_append.1 ht with ht | ht
    · have hne : t.offset ≠ o := fun heq => hnew (heq ▸ List.mem_map_of_mem ht)
      simp [h.handled t ht, mention, hne]
    · obtain rfl := List.mem_singleton.1 ht
      simp [mention, hnone.2]
  · rw [List.map_append, List.map_singleton]
    exact List.Nodup.append h.offsets (List.nodup_cons.2 ⟨List.not_mem_nil, List.nodup_nil⟩)
      (List.disjoint_singleton.2 hnew)
  · rw [size_reserve, List.range'_1_concat]
    simp only [List.map_append, List.append_assoc, List.map_cons, List.singleton_append] at hperm ⊢
    exact List.perm_middle.trans ((hperm.cons _).trans (List.perm_append_singleton _ _).symm)

theorem offset_ne_of_nodup {before after : JumpTable} {t : JumpTarget}
    (h : ((before ++ t :: after).map (·.offset)).Nodup) :
    ∀ t' ∈ before ++ after, t'.offset ≠ t.offset := by
  rw [List.map_append, List.map_cons, List.nodup_middle, ← List.map_append] at h
  exact fun t' ht' heq => (List.nodup_cons.1 h).1 (heq ▸ List.mem_map_of_mem ht')

theorem map_replace {before after : JumpTable} {t : JumpTarget} (new : JumpTarget)
    (h : ((before ++ t :: after).map (·.offset)).Nodup) :
    (before ++ t :: after).map (fun t' => if t'.offset == t.offset then new else t') =
      before ++ new :: after := by
  have hstay {ts : JumpTable} (hts : ∀ t' ∈ ts, t'.offset ≠ t.offset) :
      ts.map (fun t' => if t'.offset == t.offset then new else t') = ts :=
    (List.map_congr_left fun t' ht' => if_neg (by simpa using hts t' ht')).trans (List.map_id _)
  have hne := offset_ne_of_nodup h
  rw [List.map_append, List.map_cons, hstay fun t' ht' => hne t' (List.mem_append_left _ ht'),
    hstay fun t' ht' => hne t' (List.mem_append_right _ ht'), if_pos (beq_self_eq_true _)]

/-- An entry whose label gives way to a fresh one, because its offset is a boundary after all. -/
theorem Exact.replace {before after : JumpTable} {t : JumpTarget}
    (h : Exact jumped bounded asm (before ++ t :: after) asm') (hplain : t.handled = false) :
    Exact jumped (mention bounded t.offset true) asm
      (before ++ ⟨t.offset, asm'.labels.size, true⟩ :: after) (asm'.reserve 1) := by
  obtain ⟨count, replaced, rfl, hperm, hnodup, hboth⟩ := h.labels
  have hmem : t ∈ before ++ t :: after := by simp
  have hunbounded : ¬ bounded t.offset := by
    rw [← h.handled t hmem, hplain]
    exact Bool.false_ne_true
  have hjumped : jumped t.offset :=
    ((h.keys t.offset).1 (List.mem_map_of_mem hmem)).resolve_right hunbounded
  have hoffsets : (before ++ ⟨t.offset, (asm.reserve count).labels.size, true⟩ :: after).map
      (·.offset) = (before ++ t :: after).map (·.offset) := by simp
  have hne := offset_ne_of_nodup h.offsets
  refine ⟨fun x => ?_, fun t' ht' => ?_, ?_, count + 1, t :: replaced, Scan.reserve_reserve .., ?_,
    ?_, ?_⟩
  · rw [hoffsets, h.keys]
    constructor
    · exact Or.imp_right mention_mono
    · rintro (hx | hx | ⟨-, rfl⟩)
      exacts [.inl hx, .inr hx, .inl hjumped]
  · rcases List.mem_append.1 ht' with ht' | ht'
    · simp [h.handled t' (List.mem_append_left _ ht'), mention,
        hne t' (List.mem_append_left _ ht')]
    · rcases List.mem_cons.1 ht' with rfl | ht'
      · simp [mention]
      · simp [h.handled t' (List.mem_append_right _ (List.mem_cons_of_mem _ ht')), mention,
          hne t' (List.mem_append_right _ ht')]
  · rw [hoffsets]
    exact h.offsets
  · rw [size_reserve, List.range'_1_concat]
    simp only [List.map_append, List.append_assoc, List.map_cons, List.cons_append] at hperm ⊢
    exact (List.perm_middle.trans (((List.perm_middle.append_left _).trans hperm).cons _)).trans
      (List.perm_append_singleton _ _).symm
  · rw [List.map_cons]
    refine List.nodup_cons.2 ⟨fun hin => ?_, hnodup⟩
    obtain ⟨t', ht', heq⟩ := List.mem_map.1 hin
    exact hunbounded (heq ▸ (hboth t' ht').2)
  · rintro t' (_ | ⟨_, ht'⟩)
    · exact ⟨hjumped, .inr ⟨rfl, rfl⟩⟩
    · exact (hboth t' ht').imp_right mention_mono

theorem Exact.register (h : Exact jumped bounded asm table asm') (o : UInt32) (handled : Bool) :
    Exact (mention jumped o !handled) (mention bounded o handled) asm
      (table.register asm' o handled).1 (table.register asm' o handled).2 := by
  rw [JumpTable.register]
  cases hfind : table.find? o with
  | none =>
    have hnew : o ∉ table.map (·.offset) := by
      intro hin
      obtain ⟨t, ht, heq⟩ := List.mem_map.1 hin
      exact offset_ne_of_find?_eq_none hfind ht heq
    rw [newLabel_eq]
    exact h.insert hnew handled
  | some t =>
    obtain ⟨hmem, rfl⟩ := mem_of_find? hfind
    dsimp only
    split
    · rename_i hkeep
      exact h.keep hmem fun hh => by simpa [hh] using hkeep
    · rename_i hplain
      simp only [Bool.or_eq_true, Bool.not_eq_true', not_or, Bool.not_eq_false,
        Bool.not_eq_true] at hplain
      obtain ⟨hplain, rfl⟩ := hplain
      obtain ⟨before, after, rfl⟩ := List.append_of_mem hmem
      rw [newLabel_eq]
      dsimp only
      rw [map_replace _ h.offsets, Bool.not_true, mention_false]
      exact h.replace hplain

theorem Exact.jump (h : Exact jumped bounded asm table asm') (o : UInt32) :
    Exact (mention jumped o true) bounded asm (table.register asm' o false).1
      (table.register asm' o false).2 := by
  simpa only [Bool.not_false, mention_false] using h.register o false

theorem Exact.boundary (h : Exact jumped bounded asm table asm') (o : UInt32) :
    Exact jumped (mention bounded o true) asm (table.register asm' o true).1
      (table.register asm' o true).2 := by
  simpa only [Bool.not_true, mention_false] using h.register o true

theorem Exact.congr {jumped' bounded' : UInt32 → Prop} (h : Exact jumped bounded asm table asm')
    (hj : ∀ o, jumped o ↔ jumped' o) (hb : ∀ o, bounded o ↔ bounded' o) :
    Exact jumped' bounded' asm table asm' := by
  rwa [← funext fun o => propext (hj o), ← funext fun o => propext (hb o)]

/-- The labels of a table differ, and each was allocated since and is not bound. -/
theorem Exact.fresh (h : Exact jumped bounded asm table asm') :
    (table.map (·.label)).Nodup ∧
      ∀ t ∈ table, asm.labels.size ≤ t.label ∧ asm'.labels[t.label]? = some none := by
  obtain ⟨count, replaced, rfl, hperm, -, -⟩ := h.labels
  have hnodup := hperm.nodup_iff.2 (List.nodup_range' ..)
  rw [List.map_append] at hnodup hperm
  refine ⟨(List.nodup_append.1 hnodup).1, fun t ht => ?_⟩
  have hmem := hperm.mem_iff.1 (List.mem_append_left _ (List.mem_map_of_mem ht))
  obtain ⟨hlow, hhigh⟩ := List.mem_range'_1.1 hmem
  refine ⟨hlow, ?_⟩
  rw [Assembler.reserve, Array.getElem?_append_right hlow, Array.getElem?_replicate,
    if_pos (by omega)]

/-- No more labels are allocated and left unused than there are boundaries of handlers. -/
theorem Exact.size_le (h : Exact jumped bounded asm table asm') :
    asm'.labels.size ≤ asm.labels.size + table.length + (table.filter (·.handled)).length := by
  obtain ⟨count, replaced, rfl, hperm, hnodup, hboth⟩ := h.labels
  have hlength := hperm.length_eq
  rw [List.length_map, List.length_append, List.length_range'] at hlength
  have hsub : replaced.map (·.offset) ⊆ (table.filter (·.handled)).map (·.offset) := by
    intro o ho
    obtain ⟨t, ht, rfl⟩ := List.mem_map.1 ho
    obtain ⟨t', ht', heq⟩ := List.mem_map.1 ((h.keys t.offset).2 (.inr (hboth t ht).2))
    refine List.mem_map.2 ⟨t', List.mem_filter.2 ⟨ht', ?_⟩, heq⟩
    exact (h.handled t' ht').2 (heq ▸ (hboth t ht).2)
  have hle := (List.Nodup.subperm hnodup hsub).length_le
  rw [List.length_map, List.length_map] at hle
  rw [size_reserve]
  omega

end JumpTable

/-! ## Scanning -/

namespace Scan

variable {c : Code} {asm asm' : Assembler} {table : JumpTable} {jumped bounded : UInt32 → Prop}

open JumpTable (Exact mention)

/-- A scan succeeds exactly if `inside` holds, and then with a table of which `P` holds. -/
def Ends (result : Except Invariant JumpTable × Assembler) (inside : Prop)
    (P : JumpTable → Assembler → Prop) : Prop :=
  match result with
  | (.ok table, asm) => inside ∧ P table asm
  | (.error _, _) => ¬ inside

theorem Ends.imp {result : Except Invariant JumpTable × Assembler} {inside inside' : Prop}
    {P P' : JumpTable → Assembler → Prop} (h : Ends result inside P) (hi : inside ↔ inside')
    (hp : ∀ table asm, P table asm → P' table asm) : Ends result inside' P' := by
  rcases result with ⟨_ | table, asm⟩
  · exact mt hi.2 h
  · exact ⟨hi.1 h.1, hp table asm h.2⟩

/-- Entering the targets of jumps ends with all of them in the table, or at one that is outside. -/
theorem jumps_exact (is : List Instruction) (h : Exact jumped bounded asm table asm') :
    Ends (jumps c is table asm')
      (∀ ins ∈ is, ∀ t, ins.target? = some t → t.toNat ≤ c.data.size)
      (Exact (fun o => jumped o ∨ ∃ ins ∈ is, ins.target? = some o) bounded asm) := by
  induction is generalizing table asm' jumped with
  | nil => exact ⟨by simp, h.congr (by simp) fun _ => Iff.rfl⟩
  | cons ins is ih =>
    rw [jumps]
    cases htarget : ins.target? with
    | none =>
      refine (ih h).imp (by simp [htarget]) fun table asm he => ?_
      exact he.congr (by simp [htarget]) fun _ => Iff.rfl
    | some t =>
      dsimp only
      split
      · rename_i hout
        exact fun hall => absurd (hall ins (List.mem_cons_self ..) t htarget) (Nat.not_le.2 hout)
      · rename_i hin
        refine (ih (h.jump t)).imp ?_ fun table asm he => ?_
        · simp [htarget, Nat.not_lt.1 hin]
        · refine he.congr (fun o => ?_) fun _ => Iff.rfl
          simp [mention, htarget, or_assoc, eq_comm]

/-- Entering the boundaries of handlers ends with all of them in the table, or at a handler without a
proper range. -/
theorem handlers_exact (hs : List Handler) (h : Exact jumped bounded asm table asm') :
    Ends (handlers c hs table asm')
      (∀ h ∈ hs, h.start ≤ h.stop ∧ h.stop.toNat ≤ c.data.size)
      (Exact jumped (fun o => bounded o ∨ ∃ h ∈ hs, h.start = o ∨ h.stop = o) asm) := by
  induction hs generalizing table asm' bounded with
  | nil => exact ⟨by simp, h.congr (fun _ => Iff.rfl) (by simp)⟩
  | cons hd hs ih =>
    rw [handlers]
    split
    · rename_i hbad
      intro hall
      obtain ⟨hle, hsize⟩ := hall hd (List.mem_cons_self ..)
      exact hbad.elim (UInt32.not_lt.2 hle) (Nat.not_lt.2 hsize)
    · rename_i hgood
      obtain ⟨hle, hsize⟩ := not_or.1 hgood
      refine (ih ((h.boundary hd.start).boundary hd.stop)).imp ?_ fun table asm he => ?_
      · simp [UInt32.not_lt.1 hle, Nat.not_lt.1 hsize]
      · refine he.congr (fun _ => Iff.rfl) fun o => ?_
        simp [mention, or_assoc, eq_comm]

/-- Why a code cannot be scanned. -/
inductive Fails (c : Code) : Prop
  | stream : Stream.Breaks c.data → Fails c
  | jump {t : Int} : Stream.Jumps c.data t → ¬ (0 ≤ t ∧ t ≤ c.data.size) → Fails c
  | handler {h : Handler} : h ∈ c.handlers → ¬ (h.start ≤ h.stop ∧ h.stop.toNat ≤ c.data.size) →
      Fails c

/-- What is read from a code is whole, and stays inside it. -/
structure Inside (c : Code) : Prop where
  jumps : ∀ ins ∈ Stream.instructions c.data, ∀ t, ins.target? = some t → t.toNat ≤ c.data.size
  whole : (Stream.read c.data).2 = none
  handlers : ∀ h ∈ c.handlers, h.start ≤ h.stop ∧ h.stop.toNat ≤ c.data.size

theorem not_inside_iff (hsize : c.data.size < 2 ^ 31) : ¬ Inside c ↔ Fails c := by
  constructor
  · intro h
    by_contra hgood
    refine h ⟨fun ins hins u hu => ?_, ?_, fun h hh => ?_⟩
    · obtain ⟨t, ht, hd⟩ := Stream.jumps_of_target hsize hins hu
      exact hd.1.2 (by_contra fun hout => hgood (.jump ht hout))
    · exact Option.not_isSome_iff_eq_none.1 (mt Stream.isSome_fault_iff.1 fun hb => hgood (.stream hb))
    · exact by_contra fun hbad => hgood (.handler hh hbad)
  · intro h hin
    cases h with
    | stream hb =>
      have := Stream.isSome_fault_iff.2 hb
      rw [hin.whole] at this
      cases this
    | jump hj hout =>
      obtain ⟨ins, hins, u, hu, hd⟩ := Stream.target_of_jumps hsize hj
      exact hout (hd.1.1 (hin.jumps ins hins u hu))
    | handler hh hbad => exact hbad (hin.handlers _ hh)

theorem targets_ends (c : Code) (asm : Assembler) :
    Ends (targets c asm) (Inside c)
      (Exact (fun o => ∃ ins ∈ Stream.instructions c.data, ins.target? = some o)
        (fun o => ∃ h ∈ c.handlers, h.start = o ∨ h.stop = o) asm) := by
  have hjumps := jumps_exact (c := c) (Stream.instructions c.data) (JumpTable.exact_nil asm)
  rw [targets]
  rw [Stream.instructions] at hjumps ⊢
  cases hread : Stream.read c.data with
  | mk is fault =>
    rw [hread] at hjumps
    dsimp only at hjumps ⊢
    rcases hres : jumps c is [] asm with ⟨e | table, asm'⟩
    · rw [hres] at hjumps
      exact fun h => hjumps (by simpa only [Stream.instructions, hread] using h.jumps)
    · rw [hres] at hjumps
      obtain ⟨hinside, hexact⟩ := hjumps
      cases fault with
      | some f =>
        intro h
        have hwhole := h.whole
        rw [hread] at hwhole
        cases hwhole
      | none =>
        dsimp only
        refine (handlers_exact c.handlers.toList hexact).imp ?_ fun table asm he => ?_
        · simp only [Array.mem_toList_iff]
          refine ⟨fun hh => ⟨?_, ?_, hh⟩, Inside.handlers⟩
          · rwa [Stream.instructions, hread]
          · rw [hread]
        · exact he.congr (by simp) (by simp)

/-- Scanning is exact: the table has the targets of the jumps and the boundaries of the handlers, marks the
boundaries, and gives different labels that were not allocated before; and scanning fails exactly if the
stream breaks, or a jump or a handler leaves it. -/
theorem targets_exact (c : Code) (hsize : c.data.size < 2 ^ 31) (asm : Assembler) :
    (∀ table asm', targets c asm = (.ok table, asm') →
      Exact (fun o => Stream.Jumps c.data o.toNat)
        (fun o => ∃ h ∈ c.handlers, h.start = o ∨ h.stop = o) asm table asm' ∧
      (table.map (·.label)).Nodup ∧
      (∀ t ∈ table, asm.labels.size ≤ t.label ∧ asm'.labels[t.label]? = some none) ∧
      asm'.labels.size ≤ asm.labels.size + table.length + (table.filter (·.handled)).length) ∧
    ((∃ e asm', targets c asm = (.error e, asm')) ↔ Fails c) := by
  have hends := targets_ends c asm
  rcases hres : targets c asm with ⟨e | table, asm'⟩
  · rw [hres] at hends
    refine ⟨fun _ _ h => (nomatch h), ?_⟩
    exact iff_of_true ⟨e, asm', rfl⟩ ((not_inside_iff hsize).1 hends)
  · rw [hres] at hends
    obtain ⟨hinside, hexact⟩ := hends
    have he : Exact (fun o => Stream.Jumps c.data o.toNat)
        (fun o => ∃ h ∈ c.handlers, h.start = o ∨ h.stop = o) asm table asm' := by
      refine hexact.congr (fun o => ⟨?_, fun ho => ?_⟩) fun _ => Iff.rfl
      · rintro ⟨ins, hins, ho⟩
        obtain ⟨t, ht, hd⟩ := Stream.jumps_of_target hsize hins ho
        rwa [hd.2 (hinside.jumps ins hins o ho)]
      · obtain ⟨ins, hins, u, hu, hd⟩ := Stream.target_of_jumps hsize ho
        have huo : u = o := UInt32.toNat_inj.1 (Int.ofNat.inj (hd.2 (hinside.jumps ins hins u hu)))
        exact ⟨ins, hins, huo ▸ hu⟩
    refine ⟨fun _ _ h => ?_, iff_of_false ?_ ?_⟩
    · cases h
      exact ⟨he, he.fresh.1, he.fresh.2, he.size_le⟩
    · rintro ⟨e, a, h⟩
      cases h
    · exact fun hf => (not_inside_iff hsize).2 hf hinside

/-- Two jumps to the boundaries of a handler. -/
def guardedLoop : Code :=
  { Code.ofName [] with
    data := #[Word.ofOpcode .jumpBy, 4, Word.ofOpcode .jumpBy, 0xfffffffe]
    handlers := #[⟨0, 0, 4, 0, ⟨0⟩, ⟨0⟩⟩] }

/-- Both boundaries were targets before; their first labels are left unused. -/
theorem targets_exact_guarded :
    guardedLoop.data.size < 2 ^ 31 ∧ ¬ Fails guardedLoop ∧
      ∃ table asm', targets guardedLoop Assembler.empty = (.ok table, asm') ∧
        table.map (fun t => (t.offset, t.label, t.handled)) = [(4, 3, true), (0, 2, true)] ∧
        Exact (fun o => Stream.Jumps guardedLoop.data o.toNat)
          (fun o => ∃ h ∈ guardedLoop.handlers, h.start = o ∨ h.stop = o) Assembler.empty table asm' := by
  have hsize : guardedLoop.data.size < 2 ^ 31 := by decide
  have hexact := targets_exact guardedLoop hsize Assembler.empty
  have hrows : (targets guardedLoop Assembler.empty).1.toOption.map
      (·.map fun t => (t.offset, t.label, t.handled)) = some [(4, 3, true), (0, 2, true)] := by
    decide +kernel
  rcases hres : targets guardedLoop Assembler.empty with ⟨e | table, asm'⟩
  · rw [hres] at hrows
    cases hrows
  · rw [hres] at hrows hexact
    refine ⟨hsize, fun hf => ?_, table, asm', rfl, Option.some.inj hrows,
      (hexact.1 table asm' rfl).1⟩
    obtain ⟨e, a, h⟩ := hexact.2.2 hf
    cases h

end Scan

end RegisterJit
