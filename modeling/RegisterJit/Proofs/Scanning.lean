import RegisterJit.Compile.Session
import RegisterJit.Proofs.Building

/-!
# The table of jump targets

Scanning a formed code succeeds. The table has one entry for each offset, its labels are fresh and
differ from each other, every jump and every boundary of a handler has an entry, the latter marked,
and every entry is at a boundary of the stream, so that its label will be bound.

`Fresh` is the invariant of the table: different entries have different labels and different offsets. `Entered`
says what entering one offset does, with the label allocated or replaced, and `Scanned` what a scan of the code
does by any number of them. `Complete` adds, for a formed code, that the offsets of jumps and handlers are
found. The emitters ask this table for labels, so `Blocks` needs it to say that each jump has a label which will
be bound. That the table has no other entries is a question of its own (`Targets`).
-/

namespace RegisterJit

open X86 (Label Assembler)
open RegisterJit.Stream (Boundary Spells)

namespace JumpTable

/-- The labels of a table are between `low` and `high`, and no two entries share an offset or a
label. -/
structure Fresh (table : JumpTable) (low high : Nat) : Prop where
  low : ∀ t ∈ table, low ≤ t.label
  high : ∀ t ∈ table, t.label < high
  labels : ∀ t ∈ table, ∀ t' ∈ table, t.label = t'.label → t = t'
  offsets : ∀ t ∈ table, ∀ t' ∈ table, t.offset = t'.offset → t = t'

theorem fresh_nil (low high : Nat) : Fresh [] low high := by
  constructor <;> simp

variable {table : JumpTable}

theorem mem_of_find? {offset : UInt32} {t : JumpTarget} (h : table.find? offset = some t) :
    t ∈ table ∧ t.offset = offset :=
  ⟨List.mem_of_find?_eq_some h, by simpa using List.find?_some h⟩

theorem offset_ne_of_find?_eq_none {offset : UInt32} (h : table.find? offset = none)
    {t : JumpTarget} (ht : t ∈ table) : t.offset ≠ offset := by
  have := List.find?_eq_none.1 h t ht
  simpa using this

theorem Fresh.find? {low high : Nat} (h : table.Fresh low high) {t : JumpTarget} (ht : t ∈ table) :
    table.find? t.offset = some t := by
  cases hf : table.find? t.offset with
  | none => exact absurd rfl (offset_ne_of_find?_eq_none hf ht)
  | some t' =>
    obtain ⟨hmem, hoff⟩ := mem_of_find? hf
    rw [h.offsets t' hmem t ht hoff]

/-- An offset has an entry, which is marked if `handled`. -/
def Has (table : JumpTable) (offset : UInt32) (handled : Bool) : Prop :=
  ∃ t ∈ table, t.offset = offset ∧ (handled = true → t.handled = true)

theorem Has.find? {low high : Nat} (h : table.Fresh low high) {offset : UInt32} {handled : Bool}
    (hh : table.Has offset handled) :
    ∃ t, table.find? offset = some t ∧ (handled = true → t.handled = true) := by
  obtain ⟨t, ht, rfl, hm⟩ := hh
  exact ⟨t, h.find? ht, hm⟩

/-- What entering an offset does. -/
structure Entered (table : JumpTable) (asm : Assembler) (offset : UInt32) (handled : Bool)
    (table' : JumpTable) (asm' : Assembler) (low : Nat) : Prop where
  fresh : table'.Fresh low asm'.labels.size
  has : table'.Has offset handled
  keeps : ∀ o b, table.Has o b → table'.Has o b
  offsets : ∀ t ∈ table', t.offset = offset ∨ ∃ t' ∈ table, t'.offset = t.offset
  labels : ∃ count, asm' = asm.reserve count

theorem newLabel_eq (asm : Assembler) : asm.newLabel = (asm.labels.size, asm.reserve 1) := by
  rw [Assembler.newLabel, Assembler.reserve, Array.push_eq_append]
  rfl

theorem size_reserve (asm : Assembler) (count : Nat) :
    (asm.reserve count).labels.size = asm.labels.size + count := by
  simp [Assembler.reserve]

/-- A table in which the entry of `offset`, if there was one, has given way to one with a fresh
label. -/
theorem entered_fresh {asm : Assembler} {low : Nat} (h : table.Fresh low asm.labels.size)
    (hlow : low ≤ asm.labels.size) {offset : UInt32} {handled : Bool} {table' : JumpTable}
    (hcases : ∀ t ∈ table', t = ⟨offset, asm.labels.size, handled⟩ ∨
      t ∈ table ∧ t.offset ≠ offset)
    (hnew : (⟨offset, asm.labels.size, handled⟩ : JumpTarget) ∈ table')
    (hold : ∀ t ∈ table, t.offset ≠ offset → t ∈ table')
    (hmark : ∀ t ∈ table, t.offset = offset → handled = true) :
    table.Entered asm offset handled table' (asm.reserve 1) low := by
  have hlt : ∀ t ∈ table, t.label ≠ asm.labels.size := fun t ht => Nat.ne_of_lt (h.high t ht)
  refine ⟨⟨?_, ?_, ?_, ?_⟩, ⟨_, hnew, rfl, id⟩, ?_, ?_, 1, rfl⟩
  · intro t ht
    rcases hcases t ht with rfl | ⟨ht, -⟩
    · exact hlow
    · exact h.low t ht
  · intro t ht
    rw [size_reserve]
    rcases hcases t ht with rfl | ⟨ht, -⟩
    · exact Nat.lt_succ_self _
    · exact Nat.lt_succ_of_lt (h.high t ht)
  · intro t ht t' ht' heq
    rcases hcases t ht with rfl | ⟨ht, -⟩ <;> rcases hcases t' ht' with rfl | ⟨ht', -⟩
    · rfl
    · exact absurd heq.symm (hlt t' ht')
    · exact absurd heq (hlt t ht)
    · exact h.labels t ht t' ht' heq
  · intro t ht t' ht' heq
    rcases hcases t ht with rfl | ⟨ht, hne⟩ <;> rcases hcases t' ht' with rfl | ⟨ht', hne'⟩
    · rfl
    · exact absurd heq.symm hne'
    · exact absurd heq hne
    · exact h.offsets t ht t' ht' heq
  · rintro o b ⟨t, ht, rfl, hm⟩
    by_cases ho : t.offset = offset
    · exact ⟨_, hnew, ho.symm, fun _ => hmark t ht ho⟩
    · exact ⟨t, hold t ht ho, rfl, hm⟩
  · intro t ht
    rcases hcases t ht with rfl | ⟨ht, -⟩
    · exact .inl rfl
    · exact .inr ⟨t, ht, rfl⟩

theorem register_entered {asm : Assembler} {low : Nat} (h : table.Fresh low asm.labels.size)
    (hlow : low ≤ asm.labels.size) (offset : UInt32) (handled : Bool) :
    table.Entered asm offset handled (table.register asm offset handled).1
      (table.register asm offset handled).2 low := by
  rw [register]
  split
  · rename_i t ht
    obtain ⟨hmem, hoff⟩ := mem_of_find? ht
    split
    · -- The entry stays.
      rename_i hkeep
      refine ⟨h, ⟨t, hmem, hoff, fun hh => by simpa [hh] using hkeep⟩, fun _ _ => id,
        fun t' ht' => .inr ⟨t', ht', rfl⟩, 0, ?_⟩
      simp [Assembler.reserve]
    · -- A fresh label takes the place of the plain one.
      rename_i hplain
      rw [newLabel_eq]
      dsimp only
      have hcases : ∀ t' ∈ table.map fun t => if t.offset == offset then
          (⟨offset, asm.labels.size, handled⟩ : JumpTarget) else t,
          t' = ⟨offset, asm.labels.size, handled⟩ ∨ t' ∈ table ∧ t'.offset ≠ offset := by
        intro t' ht'
        obtain ⟨t₁, ht₁, rfl⟩ := List.mem_map.1 ht'
        by_cases ho : t₁.offset = offset
        · simp [ho]
        · simp [ho, ht₁]
      exact entered_fresh h hlow hcases (List.mem_map.2 ⟨t, hmem, by simp [hoff]⟩)
        (fun t' ht' hne => List.mem_map.2 ⟨t', ht', by simp [hne]⟩)
        fun _ _ _ => by
          simp only [Bool.or_eq_true, Bool.not_eq_true', not_or, Bool.not_eq_false] at hplain
          exact hplain.2
  · rename_i hnone
    rw [newLabel_eq]
    dsimp only
    refine entered_fresh h hlow (fun t' ht' => ?_) (by simp)
      (fun t' ht' _ => List.mem_append_left _ ht')
      fun t' ht' ho => absurd ho (offset_ne_of_find?_eq_none hnone ht')
    rcases List.mem_append.1 ht' with ht' | ht'
    · exact .inr ⟨ht', offset_ne_of_find?_eq_none hnone ht'⟩
    · exact .inl (List.mem_singleton.1 ht')

end JumpTable

namespace Scan

/-! ## Scanning a code -/

variable {c : Code} {low : Nat}

theorem reserve_reserve (asm : Assembler) (m n : Nat) :
    (asm.reserve m).reserve n = asm.reserve (m + n) := by
  simp only [Assembler.reserve, Array.append_assoc, Array.replicate_append_replicate]

/-- What scanning has entered so far: offsets of which `P` holds. -/
structure Scanned (P : UInt32 → Prop) (asm : Assembler) (low : Nat) (table : JumpTable)
    (asm' : Assembler) : Prop where
  fresh : table.Fresh low asm'.labels.size
  offsets : ∀ t ∈ table, P t.offset
  labels : ∃ count, asm' = asm.reserve count

theorem Scanned.register {P : UInt32 → Prop} {asm asm' : Assembler} {table : JumpTable}
    (h : Scanned P asm low table asm') (hlow : low ≤ asm.labels.size) {offset : UInt32}
    (hp : P offset) (handled : Bool) :
    Scanned P asm low (table.register asm' offset handled).1
        (table.register asm' offset handled).2 ∧
      (table.register asm' offset handled).1.Has offset handled ∧
      ∀ o b, table.Has o b → (table.register asm' offset handled).1.Has o b := by
  obtain ⟨count, hcount⟩ := h.labels
  have hlow' : low ≤ asm'.labels.size := by
    rw [hcount, JumpTable.size_reserve]
    omega
  have he := JumpTable.register_entered h.fresh hlow' offset handled
  refine ⟨⟨he.fresh, fun t ht => ?_, ?_⟩, he.has, he.keeps⟩
  · rcases he.offsets t ht with ho | ⟨t', ht', ho⟩
    · exact ho ▸ hp
    · exact ho ▸ h.offsets t' ht'
  · obtain ⟨more, hmore⟩ := he.labels
    exact ⟨count + more, by rw [hmore, hcount, reserve_reserve]⟩

theorem jumps_scanned {P : UInt32 → Prop} {asm asm' : Assembler} {is : List Instruction}
    {table : JumpTable} (h : Scanned P asm low table asm') (hlow : low ≤ asm.labels.size)
    (his : ∀ ins ∈ is, ∀ t, ins.target? = some t → P t ∧ t.toNat ≤ c.data.size) :
    ∃ table' asm'', jumps c is table asm' = (.ok table', asm'') ∧
      Scanned P asm low table' asm'' ∧
      (∀ ins ∈ is, ∀ t, ins.target? = some t → table'.Has t false) ∧
      ∀ o b, table.Has o b → table'.Has o b := by
  induction is generalizing table asm' with
  | nil => exact ⟨table, asm', rfl, h, by simp, fun _ _ => id⟩
  | cons ins is ih =>
    have hrest : ∀ ins ∈ is, ∀ t, ins.target? = some t → P t ∧ t.toNat ≤ c.data.size :=
      fun i hi => his i (List.mem_cons_of_mem _ hi)
    rw [jumps]
    split
    · rename_i hnone
      obtain ⟨table', asm'', heq, hs, hhas, hkeep⟩ := ih h hrest
      refine ⟨table', asm'', heq, hs, fun i hi t ht => ?_, hkeep⟩
      rcases List.mem_cons.1 hi with rfl | hi
      · rw [hnone] at ht
        cases ht
      · exact hhas i hi t ht
    · rename_i t ht
      obtain ⟨hp, hle⟩ := his ins (List.mem_cons_self ..) t ht
      rw [if_neg (Nat.not_lt.2 hle)]
      obtain ⟨hs₁, hhas₁, hkeep₁⟩ := h.register hlow hp false
      obtain ⟨table', asm'', heq, hs, hhas, hkeep⟩ := ih hs₁ hrest
      refine ⟨table', asm'', heq, hs, fun i hi t' ht' => ?_,
        fun o b hb => hkeep o b (hkeep₁ o b hb)⟩
      rcases List.mem_cons.1 hi with rfl | hi
      · rw [ht] at ht'
        cases ht'
        exact hkeep _ _ hhas₁
      · exact hhas i hi t' ht'

theorem handlers_scanned {P : UInt32 → Prop} {asm asm' : Assembler} {table : JumpTable}
    (h : Scanned P asm low table asm') (hlow : low ≤ asm.labels.size) (hs : List Handler)
    (hhs : ∀ h ∈ hs, P h.start ∧ P h.stop ∧ h.start ≤ h.stop ∧ h.stop.toNat ≤ c.data.size) :
    ∃ table' asm'', handlers c hs table asm' = (.ok table', asm'') ∧
      Scanned P asm low table' asm'' ∧
      (∀ h ∈ hs, table'.Has h.start true ∧ table'.Has h.stop true) ∧
      ∀ o b, table.Has o b → table'.Has o b := by
  induction hs generalizing table asm' with
  | nil => exact ⟨table, asm', rfl, h, by simp, fun _ _ => id⟩
  | cons hd hs ih =>
    obtain ⟨hstart, hstop, hle, hsize⟩ := hhs hd (List.mem_cons_self ..)
    have hbad : ¬ (hd.stop < hd.start ∨ c.data.size < hd.stop.toNat) :=
      not_or.2 ⟨UInt32.not_lt.2 hle, Nat.not_lt.2 hsize⟩
    rw [handlers, if_neg hbad]
    obtain ⟨hs₁, hhas₁, hkeep₁⟩ := h.register hlow hstart true
    obtain ⟨hs₂, hhas₂, hkeep₂⟩ := hs₁.register hlow hstop true
    obtain ⟨table', asm'', heq, hs', hhas, hkeep⟩ :=
      ih hs₂ fun h hh => hhs h (List.mem_cons_of_mem _ hh)
    refine ⟨table', asm'', heq, hs', fun h hh => ?_,
      fun o b hb => hkeep o b (hkeep₂ o b (hkeep₁ o b hb))⟩
    rcases List.mem_cons.1 hh with rfl | hh
    · exact ⟨hkeep _ _ (hkeep₂ _ _ hhas₁), hkeep _ _ hhas₂⟩
    · exact hhas h hh

/-- What scanning a code gives. -/
structure Complete (c : Code) (ops : List Opcode) (low high : Nat) (table : JumpTable) : Prop where
  fresh : table.Fresh low high
  boundary : ∀ t ∈ table, Boundary ops t.offset.toNat
  jumps : ∀ ins ∈ Stream.instructions c.data, ∀ t, ins.target? = some t →
    ∃ j, table.find? t = some j
  handlers : ∀ h ∈ c.handlers, ∃ s t, table.find? h.start = some s ∧ s.handled = true ∧
    table.find? h.stop = some t ∧ t.handled = true

theorem boundary_toNat {ops : List Opcode} {n : Nat} (h : Boundary ops n)
    (hsmall : Stream.extent ops < 2 ^ 32) : Boundary ops n.toUInt32.toNat := by
  have hle := h.le_extent
  rwa [Nat.toUInt32_eq, UInt32.toNat_ofNat_of_lt' (by simp [UInt32.size]; omega)]

theorem targets_complete {ops : List Opcode} (h : c.Formed ops) (hsmall : c.data.size < 2 ^ 31)
    (asm : Assembler) :
    ∃ table count, targets c asm = (.ok table, asm.reserve count) ∧
      Complete c ops asm.labels.size (asm.labels.size + count) table := by
  obtain ⟨hjumps, -, hhandlers⟩ := (Code.validateOne_iff h.spells).1 h.valid
  have hext : Stream.extent ops < 2 ^ 32 := by
    rw [← h.spells.size]
    omega
  have hread : Stream.read c.data = (Stream.instructions c.data, none) := by
    rw [Stream.instructions, h.spells.read_eq]
  have hstart : Scanned (fun o => Boundary ops o.toNat) asm asm.labels.size [] asm :=
    ⟨JumpTable.fresh_nil _ _, by simp, 0, by simp [Assembler.reserve]⟩
  obtain ⟨table₁, asm₁, heq₁, hs₁, hhas₁, -⟩ := jumps_scanned (c := c) hstart (Nat.le_refl _)
    fun ins hins t ht => ⟨hjumps ins hins t ht, by
      rw [h.spells.size]
      exact (hjumps ins hins t ht).le_extent⟩
  obtain ⟨table₂, asm₂, heq₂, hs₂, hhas₂, hkeep₂⟩ := handlers_scanned (c := c) hs₁ (Nat.le_refl _)
    c.handlers.toList fun hd hhd => by
      have hmem := Array.mem_toList_iff.1 hhd
      obtain ⟨n, hn, hstart⟩ := h.start hd hmem
      obtain ⟨m, hm, hstop⟩ := h.stop hd hmem
      refine ⟨?_, ?_, (hhandlers hd hmem).1, (hhandlers hd hmem).2⟩
      · rw [hstart]
        exact boundary_toNat hn hext
      · rw [hstop]
        exact boundary_toNat hm hext
  obtain ⟨count, hcount⟩ := hs₂.labels
  refine ⟨table₂, count, ?_, ?_⟩
  · rw [targets, hread]
    simp only [heq₁, heq₂, hcount]
  · have hfresh : table₂.Fresh asm.labels.size (asm.labels.size + count) := by
      have := hs₂.fresh
      rwa [hcount, JumpTable.size_reserve] at this
    refine ⟨hfresh, hs₂.offsets, fun ins hins t ht => ?_, fun hd hhd => ?_⟩
    · obtain ⟨j, hj, -⟩ := (hkeep₂ _ _ (hhas₁ ins hins t ht)).find? hfresh
      exact ⟨j, hj⟩
    · obtain ⟨hb, he⟩ := hhas₂ hd (Array.mem_toList_iff.2 hhd)
      obtain ⟨s, hs, hsm⟩ := hb.find? hfresh
      obtain ⟨t, ht, htm⟩ := he.find? hfresh
      exact ⟨s, t, hs, hsm rfl, ht, htm rfl⟩

end Scan

end RegisterJit
