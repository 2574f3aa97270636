import Mathlib.Data.List.Nodup
import RegisterJit.Bytecode.Validate
import RegisterJit.Proofs.State

/-!
# Laying out frames

A frame that is pushed takes the room from the old stack pointer to the new one: its arguments, the
receiver, the header and the registers, and nothing is written outside. The end of the registers is
computed in 32 bits, so this holds for frames whose size can be told in 32 bits. A register count
beyond that makes the end wrap, and a frame is given out that does not have its registers.

`Roomy` is a frame that fits below the limit and whose size can be told in 32 bits, and its `positions` are the
words that it takes. That they are different addresses (`Roomy.nodup`) makes the writes of the host independent,
so every word is read back as what was written at its position. `StackPlaced` is what is known of the stack
itself, and `stackPlaced_ofConfig` that the machines which are set up have one. `pushFrame_laidOut` is the
result, with the exact bound below which it holds, and `pushFrame_vastCall` the call beyond the bound. `Leaving`
uses the same lemmas about several writes for registers that are parked.
-/

namespace RegisterJit

/-! ## Displacements -/

namespace X86

theorem toNat_displacementWord (d : Int32) : ((displacementWord d).toNat : Int) = d.toInt % 2 ^ 64 := by
  have hle := d.le_toInt
  have hlt := d.toInt_lt
  have hword : (displacementWord d).toNat = d.toInt64.toBitVec.toNat := rfl
  have hint : d.toInt64.toBitVec.toInt = d.toInt := Int32.toInt_toInt64 d
  rw [hword]
  rw [BitVec.toInt_eq_toNat_cond] at hint
  split at hint <;> omega

theorem toNat_add_displacementWord {a : UInt64} {d : Int32} (hlow : 0 ≤ a.toNat + d.toInt)
    (hhigh : a.toNat + d.toInt < 2 ^ 64) :
    ((a + displacementWord d).toNat : Int) = a.toNat + d.toInt := by
  have hd := toNat_displacementWord d
  have ha := a.toNat_lt
  rw [UInt64.toNat_add]
  omega

theorem toInt_scale {i : Int32} (hlow : -2 ^ 28 ≤ i.toInt) (hhigh : i.toInt < 2 ^ 28) :
    (i * 8).toInt = i.toInt * 8 := by
  rw [Int32.toInt_mul]
  have h8 : (8 : Int32).toInt = 8 := rfl
  rw [h8]
  exact Int.bmod_eq_of_le (by omega) (by omega)

end X86

namespace Machine

theorem toNat_argumentPlace {frame : UInt64} {i : Nat} (hi : i + 2 ≤ 2 ^ 28)
    (hframe : 8 * (i + 2) ≤ frame.toNat) : (argumentPlace frame i).toNat = frame.toNat - 8 * (i + 2) := by
  have hindex : (Register.arg i).index.toInt = -2 - i := by
    rw [Register.arg]
    exact Int32.toInt_ofInt_of_le (by omega) (by omega)
  have hscale := X86.toInt_scale (i := (Register.arg i).index) (by omega) (by omega)
  have ha := frame.toNat_lt
  have hadd := X86.toNat_add_displacementWord (a := frame) (d := (Register.arg i).index * 8)
    (by omega) (by omega)
  rw [argumentPlace]
  omega

theorem toNat_registerPlace {frame : UInt64} {r : Nat} (hr : r + 9 < 2 ^ 28)
    (hframe : frame.toNat + 72 + 8 * r < 2 ^ 64) :
    (registerPlace frame r).toNat = frame.toNat + 72 + 8 * r := by
  have hindex : (Int32.ofNat r).toInt = r := Int32.toInt_ofNat_of_lt (by omega)
  have hscale := X86.toInt_scale (i := Int32.ofNat r) (by omega) (by omega)
  have hsum : (Frame.headerSize + Int32.ofNat r * 8).toInt = 72 + 8 * r := by
    rw [Int32.toInt_add, hscale, hindex]
    have h72 : Frame.headerSize.toInt = 72 := rfl
    rw [h72]
    rw [Int.bmod_eq_of_le (by omega) (by omega)]
    omega
  have hadd := X86.toNat_add_displacementWord (a := frame) (d := Frame.headerSize + Int32.ofNat r * 8)
    (by omega) (by omega)
  rw [registerPlace]
  omega

/-! ## Writing several words -/

def writeAll (m : Machine) (es : List (UInt64 × UInt64)) : Machine :=
  es.foldl (fun m e => m.writeWord e.1 e.2) m

theorem writeAll_append (m : Machine) (es fs : List (UInt64 × UInt64)) :
    m.writeAll (es ++ fs) = (m.writeAll es).writeAll fs := List.foldl_append ..

theorem writeAll_readWord_of_not_mem {m : Machine} {es : List (UInt64 × UInt64)} {a : UInt64}
    (h : a ∉ es.map Prod.fst) : (m.writeAll es).readWord a = m.readWord a := by
  induction es generalizing m with
  | nil => rfl
  | cons e es ih =>
    rw [List.map_cons, List.mem_cons, not_or] at h
    exact (ih h.2).trans (readWord_writeWord_of_ne (Ne.symm h.1) _)

theorem writeAll_readWord_of_mem {m : Machine} {es : List (UInt64 × UInt64)}
    (hdistinct : (es.map Prod.fst).Nodup) {a w : UInt64} (h : (a, w) ∈ es) :
    (m.writeAll es).readWord a = w := by
  induction es generalizing m with
  | nil => cases h
  | cons e es ih =>
    rw [List.map_cons, List.nodup_cons] at hdistinct
    rcases List.mem_cons.1 h with rfl | h
    · exact (writeAll_readWord_of_not_mem hdistinct.1).trans (readWord_writeWord_self _ _ _)
    · exact ih hdistinct.2 h

theorem writeAll_frame (m : Machine) (es : List (UInt64 × UInt64)) :
    ∃ memory, m.writeAll es = { m with cpu := { m.cpu with memory := memory } } := by
  induction es generalizing m with
  | nil => exact ⟨m.cpu.memory, rfl⟩
  | cons e es ih =>
    obtain ⟨memory, h⟩ := ih (m.writeWord e.1 e.2)
    exact ⟨memory, h⟩

/-! ## The words of a frame -/

/-- The arguments of a frame with their addresses, from number `i` on. -/
def argumentEntries (frame : UInt64) (i : Nat) (args : List Value) : List (UInt64 × UInt64) :=
  (args.zipIdx i).map fun (v, j) => (argumentPlace frame j, v.word)

/-- The words of a header with their addresses, from number `i` on. -/
def headerEntries (frame : UInt64) (ws : List UInt64) (i : Nat) : List (UInt64 × UInt64) :=
  (ws.zipIdx i).map fun (w, j) => (frame + (8 * j).toUInt64, w)

def registerEntries (frame : UInt64) (r count : Nat) : List (UInt64 × UInt64) :=
  (List.range' r count).map fun j => (registerPlace frame j, Value.undefined.word)

theorem writeArguments_eq (m : Machine) (frame : UInt64) (i : Nat) (args : List Value) :
    m.writeArguments frame i args = m.writeAll (argumentEntries frame i args) := by
  induction args generalizing m i with
  | nil => rfl
  | cons v args ih => exact ih _ (i + 1)

theorem writeUp_eq (m : Machine) (frame : UInt64) (i : Nat) (ws : List UInt64) :
    m.writeUp (frame + (8 * i).toUInt64) ws = m.writeAll (headerEntries frame ws i) := by
  induction ws generalizing m i with
  | nil => exact (rfl : m = m)
  | cons w ws ih =>
    have hnext : frame + (8 * i).toUInt64 + 8 = frame + (8 * (i + 1)).toUInt64 := by
      rw [UInt64.add_assoc, Nat.mul_add]
      simp [Nat.toUInt64_eq]
    rw [writeUp, hnext, ih, headerEntries, headerEntries, List.zipIdx_cons, List.map_cons]
    rfl

theorem clearRegisters_eq (m : Machine) (frame : UInt64) (r count : Nat) :
    m.clearRegisters frame r count = m.writeAll (registerEntries frame r count) := by
  induction count generalizing m r with
  | zero => rfl
  | succ count ih => exact ih _ (r + 1)

end Machine

def Call.slots (call : Call) : Nat := max call.args.length call.code.unit.code.params.toNat

def Call.registers (call : Call) : Nat := call.code.unit.code.registerCount.toNat

/-- The argument with a number, undefined if it is not passed. -/
def Call.argument (call : Call) (i : Nat) : Value := (call.args[i]?).getD Value.undefined

namespace Machine

def frameEntries (frame prev base : UInt64) (call : Call) : List (UInt64 × UInt64) :=
  argumentEntries frame 0 (paddedArguments call.args call.code.unit.code.params.toNat) ++
    ((frame - 8, call.this.word) :: headerEntries frame (headerWords prev base call) 0 ++
      registerEntries frame 0 (clearedRegisters call.code.unit.code))

theorem layFrame_eq (m : Machine) (prev : UInt64) (call : Call) :
    m.layFrame prev call =
      ((framePlace (m.contextWord Context.stackPointer) call).1,
        (m.writeAll (frameEntries (framePlace (m.contextWord Context.stackPointer) call).1 prev
          (m.contextWord Context.stackPointer) call)).setContextWord Context.stackPointer
            (framePlace (m.contextWord Context.stackPointer) call).2) := by
  have hup (m : Machine) (frame : UInt64) (ws : List UInt64) :
      m.writeUp frame ws = m.writeAll (headerEntries frame ws 0) := by
    rw [← writeUp_eq m frame 0 ws]
    simp
  have hcons (m : Machine) (a w : UInt64) (es : List (UInt64 × UInt64)) :
      m.writeAll ((a, w) :: es) = (m.writeWord a w).writeAll es := rfl
  rw [frameEntries, writeAll_append, List.cons_append, hcons, writeAll_append, ← writeArguments_eq,
    ← clearRegisters_eq, ← hup, layFrame]

/-! ## The room of a frame -/

/-- A register stack that lies behind its context, is smaller than two gigabytes and ends in the lower
half of memory. -/
structure StackPlaced (m : Machine) : Prop where
  context : m.context.toNat + pageSize ≤ (m.contextWord Context.stackPointer).toNat
  below : (m.contextWord Context.stackPointer).toNat ≤ (m.contextWord Context.stackLimit).toNat
  small : (m.contextWord Context.stackLimit).toNat < (m.contextWord Context.stackPointer).toNat + 2 ^ 31
  limit : (m.contextWord Context.stackLimit).toNat ≤ 2 ^ 63

end Machine

def Call.room (call : Call) : Nat := 8 * (call.slots + 1) + 72 + 8 * call.registers

/-- The most registers whose frame has a size in 32 bits. -/
def Call.registerBound : Nat := 2 ^ 28 - 9

theorem Call.length_paddedArguments (call : Call) :
    (Machine.paddedArguments call.args call.code.unit.code.params.toNat).length = call.slots := by
  rw [Machine.paddedArguments, List.length_append, List.length_replicate, Call.slots]
  omega

theorem Call.getElem?_paddedArguments (call : Call) {i : Nat} (hi : i < call.slots) :
    (Machine.paddedArguments call.args call.code.unit.code.params.toNat)[i]? =
      some (call.argument i) := by
  rw [Call.slots] at hi
  rw [Machine.paddedArguments, Call.argument, List.getElem?_append]
  split
  · rename_i hlt
    rw [List.getElem?_eq_getElem hlt, Option.getD_some]
  · rename_i hge
    have hnone : call.args[i]? = none := List.getElem?_eq_none (by omega)
    rw [hnone, Option.getD_none, List.getElem?_replicate_of_lt (by omega)]

namespace Machine

/-- Where the words of a frame are, in words from its start. -/
def positions (slots count : Nat) : List Nat :=
  (List.range slots).map (fun i => slots - 1 - i) ++
    (slots :: (List.range 9).map (fun i => slots + 1 + i) ++
      (List.range count).map fun r => slots + 10 + r)

theorem nodup_positions (slots count : Nat) : (positions slots count).Nodup := by
  rw [positions, List.nodup_append]
  refine ⟨?_, ?_, ?_⟩
  · refine List.Nodup.map_on (fun i hi j hj heq => ?_) List.nodup_range
    rw [List.mem_range] at hi hj
    omega
  · rw [List.cons_append, List.nodup_cons, List.nodup_append]
    refine ⟨?_, ?_, ?_, ?_⟩
    · simp only [List.mem_append, List.mem_map, not_or, not_exists, not_and]
      exact ⟨fun i _ => by omega, fun i _ => by omega⟩
    · exact List.Nodup.map_on (fun i _ j _ heq => by omega) List.nodup_range
    · exact List.Nodup.map_on (fun i _ j _ heq => by omega) List.nodup_range
    · intro a ha b hb
      obtain ⟨i, hi, rfl⟩ := List.mem_map.1 ha
      obtain ⟨r, -, rfl⟩ := List.mem_map.1 hb
      rw [List.mem_range] at hi
      omega
  · intro a ha b hb
    obtain ⟨i, hi, rfl⟩ := List.mem_map.1 ha
    rw [List.mem_range] at hi
    simp only [List.cons_append, List.mem_cons, List.mem_append, List.mem_map] at hb
    rcases hb with rfl | ⟨j, -, rfl⟩ | ⟨r, -, rfl⟩ <;> omega

theorem lt_of_mem_positions {slots count k : Nat} (h : k ∈ positions slots count) :
    k < slots + 10 + count := by
  rw [positions] at h
  simp only [List.cons_append, List.mem_append, List.mem_cons, List.mem_map, List.mem_range] at h
  rcases h with ⟨i, hi, rfl⟩ | rfl | ⟨i, hi, rfl⟩ | ⟨r, hr, rfl⟩ <;> omega

section Entries

variable {base frame prev : UInt64} {call : Call}

/-- A frame of a size that 32 bits can tell, in the lower half of memory. -/
structure Roomy (base frame : UInt64) (call : Call) : Prop where
  place : frame.toNat = base.toNat + 8 * (call.slots + 1)
  slots : call.slots + 1 < 2 ^ 28
  registers : call.registers < Call.registerBound
  fits : base.toNat + call.room ≤ 2 ^ 63

theorem toInt_registerCount {n : UInt32} (h : n.toNat < 2 ^ 31) : n.toInt32.toInt = n.toNat := by
  change BitVec.toInt n.toBitVec = _
  rw [BitVec.toInt_eq_toNat_of_lt]
  · rfl
  · change 2 * n.toNat < _
    omega

theorem Roomy.cleared (h : Roomy base frame call) :
    clearedRegisters call.code.unit.code = call.registers := by
  have hbound := h.registers
  have hcount : call.registers = call.code.unit.code.registerCount.toNat := rfl
  rw [Call.registerBound, hcount] at hbound
  rw [clearedRegisters, hcount, toInt_registerCount (by omega), Int.toNat_natCast]

theorem Roomy.positions_eq (h : Roomy base frame call) :
    (frameEntries frame prev base call).map (fun e => e.1.toNat) =
      (positions call.slots call.registers).map fun k => base.toNat + 8 * k := by
  have hplace := h.place
  have hslots := h.slots
  have hregisters := h.registers
  have hfits := h.fits
  rw [Call.registerBound] at hregisters
  rw [Call.room] at hfits
  have hzip {α : Type} (xs : List α) (f : α × Nat → UInt64 × UInt64) (g : Nat → Nat)
      (hg : ∀ x, ∀ i < xs.length, (f (x, i)).1.toNat = g i) :
      ((xs.zipIdx 0).map f).map (fun e => e.1.toNat) = (List.range xs.length).map g := by
    rw [List.map_map]
    refine List.ext_getElem (by simp) fun i h₁ h₂ => ?_
    rw [List.length_map, List.length_zipIdx] at h₁
    simp only [List.getElem_map, List.getElem_zipIdx, List.getElem_range, Function.comp_apply,
      Nat.zero_add]
    exact hg _ _ h₁
  rw [frameEntries, positions, argumentEntries, headerEntries, registerEntries, h.cleared]
  simp only [List.map_append, List.cons_append, List.map_cons]
  congr 1
  · rw [hzip _ _ (fun i => base.toNat + 8 * (call.slots - 1 - i))]
    · rw [call.length_paddedArguments, List.map_map]
      rfl
    · intro v i hi
      rw [call.length_paddedArguments] at hi
      rw [toNat_argumentPlace (by omega) (by omega)]
      omega
  · congr 1
    · rw [UInt64.toNat_sub_of_le _ _ (by rw [UInt64.le_iff_toNat_le]; change 8 ≤ _; omega)]
      change frame.toNat - 8 = _
      omega
    · congr 1
      · rw [hzip _ _ (fun i => base.toNat + 8 * (call.slots + 1 + i))]
        · rw [List.map_map]
          rfl
        · intro w i hi
          change i < 9 at hi
          have hi8 : (8 * i).toUInt64.toNat = 8 * i := by
            rw [Nat.toUInt64_eq, UInt64.toNat_ofNat_of_lt']
            change _ < 18446744073709551616
            omega
          rw [UInt64.toNat_add, hi8, Nat.mod_eq_of_lt (by omega)]
          omega
      · rw [List.map_map, List.map_map, List.range_eq_range']
        refine List.map_congr_left fun r hr => ?_
        rw [List.mem_range'_1] at hr
        simp only [Function.comp_apply]
        rw [toNat_registerPlace (by omega) (by omega)]
        omega

/-- The words of a frame stand at different addresses, from the old stack pointer to the new one. -/
theorem Roomy.nodup (h : Roomy base frame call) :
    ((frameEntries frame prev base call).map Prod.fst).Nodup := by
  apply List.Nodup.of_map UInt64.toNat
  rw [List.map_map]
  change ((frameEntries frame prev base call).map fun e => e.1.toNat).Nodup
  rw [h.positions_eq]
  exact List.Nodup.map_on (fun j _ k _ heq => by omega) (nodup_positions ..)

theorem Roomy.inside (h : Roomy base frame call) {a : UInt64}
    (ha : a ∈ (frameEntries frame prev base call).map Prod.fst) :
    base.toNat ≤ a.toNat ∧ a.toNat + 8 ≤ base.toNat + call.room := by
  have hmem : a.toNat ∈ (frameEntries frame prev base call).map fun e => e.1.toNat := by
    obtain ⟨e, he, rfl⟩ := List.mem_map.1 ha
    exact List.mem_map.2 ⟨e, he, rfl⟩
  rw [h.positions_eq] at hmem
  obtain ⟨k, hk, hak⟩ := List.mem_map.1 hmem
  have hlt := lt_of_mem_positions hk
  rw [Call.room]
  omega

theorem toNat_framePlace (hbase : base.toNat ≤ 2 ^ 63) (hargs : call.args.length < 2 ^ 47) :
    (framePlace base call).1.toNat = base.toNat + 8 * (call.slots + 1) := by
  have hparams := call.code.unit.code.params.toNat_lt
  have hslots : call.slots < 2 ^ 47 := by
    rw [Call.slots]
    omega
  have hbytes : ((call.slots + 1) * 8).toUInt64.toNat = (call.slots + 1) * 8 := by
    rw [Nat.toUInt64_eq, UInt64.toNat_ofNat_of_lt']
    change _ < 18446744073709551616
    omega
  have hsum : (framePlace base call).1 = base + ((call.slots + 1) * 8).toUInt64 := rfl
  rw [hsum, UInt64.toNat_add, hbytes, Nat.mod_eq_of_lt (by omega)]
  omega

theorem toInt_frameLimit (h : call.registers < Call.registerBound) :
    (Frame.limit call.code.unit.code.registerCount).toInt = 72 + 8 * call.registers := by
  have hcount : call.registers = call.code.unit.code.registerCount.toNat := rfl
  rw [Call.registerBound, hcount] at h
  have hint : call.code.unit.code.registerCount.toInt32.toInt =
      call.code.unit.code.registerCount.toNat := toInt_registerCount (by omega)
  rw [Frame.limit, Int32.toInt_add, X86.toInt_scale (by omega) (by omega), hint]
  have h72 : Frame.headerSize.toInt = 72 := rfl
  rw [h72, Int.bmod_eq_of_le (by omega) (by omega), hcount]
  omega

theorem toNat_frameEnd (hbase : base.toNat ≤ 2 ^ 63) (hargs : call.args.length < 2 ^ 47)
    (h : call.registers < Call.registerBound) :
    (framePlace base call).2.toNat = base.toNat + call.room := by
  have hplace := toNat_framePlace hbase hargs
  have hlimit := toInt_frameLimit h
  rw [Call.registerBound] at h
  have hparams := call.code.unit.code.params.toNat_lt
  have hslots : call.slots < 2 ^ 47 := by
    rw [Call.slots]
    omega
  have hadd := X86.toNat_add_displacementWord (a := (framePlace base call).1)
    (d := Frame.limit call.code.unit.code.registerCount) (by omega) (by omega)
  have hend : (framePlace base call).2 = (framePlace base call).1 +
    X86.displacementWord (Frame.limit call.code.unit.code.registerCount) := rfl
  rw [hend, Call.room]
  omega

end Entries

/-! ## What is given out -/

/-- A frame for a call that lies between the old and the new stack pointer: from the old one up, the
arguments in reverse order, the receiver, the header and the registers. -/
structure LaidOut (m m' : Machine) (prev frame : UInt64) (call : Call) : Prop where
  place : frame.toNat = (m.contextWord Context.stackPointer).toNat + 8 * (call.slots + 1)
  top : (m'.contextWord Context.stackPointer).toNat = frame.toNat + 72 + 8 * call.registers
  fits : m'.contextWord Context.stackPointer ≤ m.contextWord Context.stackLimit
  argument : ∀ i < call.slots,
    m'.readWord (frame - (8 * (i + 2)).toUInt64) = (call.argument i).word
  receiver : m'.readWord (frame - 8) = call.this.word
  header : ∀ i < 9, (headerWords prev (m.contextWord Context.stackPointer) call)[i]? =
    some (m'.readWord (frame + (8 * i).toUInt64))
  register : ∀ r < call.registers,
    m'.readWord (frame + (72 + 8 * r).toUInt64) = Value.undefined.word
  outside : ∀ a, a.toNat < (m.contextWord Context.stackPointer).toNat ∨
      (m'.contextWord Context.stackPointer).toNat ≤ a.toNat →
    a ≠ m.context + X86.displacementWord Context.stackPointer → m'.readWord a = m.readWord a
  rest : ∃ memory, m' = { m with cpu := { m.cpu with memory := memory } }

section Laying

variable {m : Machine} {prev : UInt64} {call : Call}

theorem StackPlaced.beyond (h : m.StackPlaced) : m.Beyond (m.contextWord Context.stackPointer) := h.context

/-- A frame that fits has a size that 32 bits can tell. -/
theorem StackPlaced.roomy (h : m.StackPlaced) (hargs : call.args.length < 2 ^ 47)
    (hregisters : call.registers < Call.registerBound)
    (hfits : (m.contextWord Context.stackPointer).toNat + call.room ≤
      (m.contextWord Context.stackLimit).toNat) :
    Roomy (m.contextWord Context.stackPointer)
      (framePlace (m.contextWord Context.stackPointer) call).1 call := by
  have hbelow := h.below
  have hsmall := h.small
  have hlimit := h.limit
  refine ⟨toNat_framePlace (by omega) hargs, ?_, hregisters, by omega⟩
  rw [Call.room] at hfits
  omega

theorem argumentPlace_eq {frame : UInt64} {i : Nat} (hi : i + 2 ≤ 2 ^ 28)
    (hframe : 8 * (i + 2) ≤ frame.toNat) : argumentPlace frame i = frame - (8 * (i + 2)).toUInt64 := by
  have hbytes : (8 * (i + 2)).toUInt64.toNat = 8 * (i + 2) := by
    rw [Nat.toUInt64_eq, UInt64.toNat_ofNat_of_lt']
    change _ < 18446744073709551616
    omega
  apply UInt64.toNat.inj
  rw [toNat_argumentPlace hi hframe, UInt64.toNat_sub_of_le _ _ (UInt64.le_iff_toNat_le.2 (by omega)),
    hbytes]

theorem registerPlace_eq {frame : UInt64} {r : Nat} (hr : r + 9 < 2 ^ 28)
    (hframe : frame.toNat + 72 + 8 * r < 2 ^ 64) :
    registerPlace frame r = frame + (72 + 8 * r).toUInt64 := by
  have hbytes : (72 + 8 * r).toUInt64.toNat = 72 + 8 * r := by
    rw [Nat.toUInt64_eq, UInt64.toNat_ofNat_of_lt']
    change _ < 18446744073709551616
    omega
  apply UInt64.toNat.inj
  rw [toNat_registerPlace hr hframe, UInt64.toNat_add, hbytes, Nat.mod_eq_of_lt (by omega)]
  omega

/-- A frame that 32 bits can tell the size of is laid out in its room. -/
theorem StackPlaced.laidOut (h : m.StackPlaced) (hargs : call.args.length < 2 ^ 47)
    (hregisters : call.registers < Call.registerBound)
    (hfits : (m.contextWord Context.stackPointer).toNat + call.room ≤
      (m.contextWord Context.stackLimit).toNat) :
    LaidOut m (m.layFrame prev call).2 prev (m.layFrame prev call).1 call := by
  have hroomy := h.roomy hargs hregisters hfits
  have hbelow := h.below
  have hlimit := h.limit
  have hplace := hroomy.place
  have hslots := hroomy.slots
  have hend : (framePlace (m.contextWord Context.stackPointer) call).2.toNat =
      (m.contextWord Context.stackPointer).toNat + call.room :=
    toNat_frameEnd (by omega) hargs hregisters
  have hbound := hregisters
  rw [Call.registerBound] at hbound
  have hroom : call.room = 8 * (call.slots + 1) + 72 + 8 * call.registers := rfl
  rw [layFrame_eq]
  generalize hbase : m.contextWord Context.stackPointer = base at *
  generalize hframe : (framePlace base call).1 = frame at *
  generalize hes : frameEntries frame prev base call = es
  obtain ⟨memory, hrest⟩ := writeAll_frame m es
  have hnodup : (es.map Prod.fst).Nodup := hes ▸ hroomy.nodup
  have hinside {a : UInt64} (ha : a ∈ es.map Prod.fst) :
      base.toNat ≤ a.toNat ∧ a.toNat + 8 ≤ base.toNat + call.room := hroomy.inside (hes ▸ ha)
  have hcontext : (m.writeAll es).context = m.context := by rw [hrest]
  have hafter {a : UInt64} (ha : base.toNat ≤ a.toNat) :
      m.context + X86.displacementWord Context.stackPointer ≠ a :=
    Beyond.ne_context (m := m) (Nat.le_trans h.beyond (by rw [hbase]; exact ha)) (by decide)
  have hkept {a : UInt64} (ha : a ≠ m.context + X86.displacementWord Context.stackPointer) :
      ((m.writeAll es).setContextWord Context.stackPointer (framePlace base call).2).readWord a =
        (m.writeAll es).readWord a :=
    setContextWord_read (by rw [hcontext]; exact ha.symm) _
  have hentry {a w : UInt64} (he : (a, w) ∈ es) :
      ((m.writeAll es).setContextWord Context.stackPointer (framePlace base call).2).readWord a = w := by
    have ha := (hinside (List.mem_map_of_mem he)).1
    rw [hkept (hafter ha).symm, writeAll_readWord_of_mem hnodup he]
  have htop : ((m.writeAll es).setContextWord Context.stackPointer
      (framePlace base call).2).contextWord Context.stackPointer = (framePlace base call).2 :=
    contextWord_setContextWord_self ..
  refine ⟨by rw [hbase]; exact hplace, ?_, ?_, ?_, ?_, ?_, ?_, ?_, ?_⟩
  · rw [htop, hend]
    omega
  · rw [htop, UInt64.le_iff_toNat_le, hend]
    exact hfits
  · intro i hi
    rw [← argumentPlace_eq (by omega) (by omega)]
    apply hentry
    rw [← hes, frameEntries, argumentEntries]
    refine List.mem_append_left _ (List.mem_map.2 ⟨(call.argument i, i), ?_, rfl⟩)
    exact List.mk_mem_zipIdx_iff_getElem?.2 (call.getElem?_paddedArguments hi)
  · apply hentry
    rw [← hes, frameEntries]
    simp
  · intro i hi
    obtain ⟨w, hword⟩ : ∃ w, (headerWords prev base call)[i]? = some w :=
      ⟨_, List.getElem?_eq_getElem hi⟩
    rw [hbase, hword, hentry]
    rw [← hes, frameEntries, List.cons_append, headerEntries]
    refine List.mem_append_right _ (List.mem_cons_of_mem _ (List.mem_append_left _ ?_))
    exact List.mem_map.2 ⟨(_, i), List.mk_mem_zipIdx_iff_getElem?.2 hword, rfl⟩
  · intro r hr
    rw [← registerPlace_eq (by omega) (by omega)]
    apply hentry
    rw [← hes, frameEntries, List.cons_append, registerEntries, hroomy.cleared]
    refine List.mem_append_right _ (List.mem_cons_of_mem _ (List.mem_append_right _ ?_))
    exact List.mem_map.2 ⟨r, List.mem_range'_1.2 ⟨Nat.zero_le _, by omega⟩, rfl⟩
  · intro a ha hne
    rw [htop, hbase, hend] at ha
    rw [hkept hne]
    apply writeAll_readWord_of_not_mem
    intro hmem
    have := hinside hmem
    omega
  · rw [hrest]
    exact ⟨_, rfl⟩

/-- Registers that all lie below the limit of the stack are so few that 32 bits can tell their size. -/
theorem StackPlaced.registers_lt {m' : Machine} {frame : UInt64} (h : m.StackPlaced)
    (hlaid : LaidOut m m' prev frame call) : call.registers < Call.registerBound := by
  have hplace := hlaid.place
  have htop := hlaid.top
  have hfits := UInt64.le_iff_toNat_le.1 hlaid.fits
  have hsmall := h.small
  rw [Call.registerBound]
  omega

end Laying

/-! ## The machines that are set up -/

theorem ofConfig_contextWord (config : MachineConfig) :
    (ofConfig config).contextWord Context.stackPointer = dataBase + pageSize.toUInt64 ∧
      (ofConfig config).contextWord Context.stackLimit = dataBase + pageSize.toUInt64 +
        (if config.stackSize ≤ 0 then 8 * 1024 * 1024 else config.stackSize.toNat).toUInt64 := by
  rw [ofConfig]
  constructor
  · rw [contextWord_setContextWord_of_ne _ _ (by decide), contextWord_setContextWord_of_ne _ _ (by decide),
      contextWord_setContextWord_self]
  · rw [contextWord_setContextWord_of_ne _ _ (by decide), contextWord_setContextWord_self]

/-- A fresh machine whose register stack is smaller than two gigabytes has it behind its context. -/
theorem stackPlaced_ofConfig {config : MachineConfig} (h : config.stackSize < 2 ^ 31) :
    (ofConfig config).StackPlaced := by
  obtain ⟨hpointer, hlimit⟩ := ofConfig_contextWord config
  have hcontext : (ofConfig config).context = dataBase := rfl
  have hsize : (if config.stackSize ≤ 0 then 8 * 1024 * 1024 else config.stackSize.toNat) < 2 ^ 31 := by
    split <;> omega
  generalize (if config.stackSize ≤ 0 then 8 * 1024 * 1024 else config.stackSize.toNat) = size at *
  have hstart : (dataBase + pageSize.toUInt64).toNat = 0x200000001000 := rfl
  have hend : (dataBase + pageSize.toUInt64 + size.toUInt64).toNat = 0x200000001000 + size := by
    rw [UInt64.toNat_add, hstart, Nat.toUInt64_eq, UInt64.toNat_ofNat_of_lt']
    · omega
    · change _ < 18446744073709551616
      omega
  refine ⟨?_, ?_, ?_, ?_⟩
  · rw [hcontext, hpointer, hstart]
    decide
  · rw [hpointer, hlimit, hstart, hend]
    omega
  · rw [hpointer, hlimit, hstart, hend]
    omega
  · rw [hlimit, hend]
    omega

/-! ## Pushing frames -/

/-- A frame that is given out is laid out in its room just when 32 bits can tell its size, and none is
given out just when the room is not there. -/
theorem pushFrame_laidOut {m : Machine} {prev : UInt64} {call : Call} (h : m.StackPlaced)
    (hargs : call.args.length < 2 ^ 47) :
    (call.registers < Call.registerBound →
      (m.pushFrame prev call = none ↔ (m.contextWord Context.stackLimit).toNat <
        (m.contextWord Context.stackPointer).toNat + call.room)) ∧
    ∀ frame m', m.pushFrame prev call = some (frame, m') →
      (LaidOut m m' prev frame call ↔ call.registers < Call.registerBound) := by
  have hlimit := h.limit
  have hbelow := h.below
  have hend (hregisters : call.registers < Call.registerBound) : m.frameFits call ↔
      (m.contextWord Context.stackPointer).toNat + call.room ≤
        (m.contextWord Context.stackLimit).toNat := by
    rw [frameFits, decide_eq_true_iff, UInt64.le_iff_toNat_le,
      toNat_frameEnd (by omega) hargs hregisters]
  refine ⟨fun hregisters => ?_, fun frame m' hpush => ⟨h.registers_lt, fun hregisters => ?_⟩⟩
  · rw [pushFrame]
    split
    · rename_i hfits
      have := (hend hregisters).1 hfits
      exact ⟨fun hnone => (by cases hnone), fun hlt => (by omega)⟩
    · rename_i hfits
      have := mt (hend hregisters).2 hfits
      exact ⟨fun _ => by omega, fun _ => rfl⟩
  · rw [pushFrame] at hpush
    split at hpush
    · rename_i hfits
      cases hpush
      exact h.laidOut hargs hregisters ((hend hregisters).1 hfits)
    · cases hpush

/-- A call with an argument more than its code has parameters. -/
def smallCall : Call where
  code := ⟨⟨0, 3, { Code.ofName [] with params := 1, registerCount := 4 }, #[]⟩, 0⟩
  callee := Value.undefined
  this := Value.undefined
  args := [Value.int32 1, Value.int32 2]
  env := 0
  construct := false

theorem pushFrame_smallCall : ∃ frame m', (ofConfig ⟨0, 0, 0⟩).pushFrame 0 smallCall = some (frame, m') ∧
    LaidOut (ofConfig ⟨0, 0, 0⟩) m' 0 frame smallCall := by
  obtain ⟨hnone, hsome⟩ := @pushFrame_laidOut (ofConfig ⟨0, 0, 0⟩) 0 smallCall
    (@stackPlaced_ofConfig ⟨0, 0, 0⟩ (by decide)) (by decide)
  have hregisters : smallCall.registers < Call.registerBound := by decide
  cases hpush : (ofConfig ⟨0, 0, 0⟩).pushFrame 0 smallCall with
  | some p => exact ⟨p.1, p.2, rfl, (hsome p.1 p.2 hpush).2 hregisters⟩
  | none =>
    have hlt := (hnone hregisters).1 hpush
    rw [(ofConfig_contextWord _).1, (ofConfig_contextWord _).2] at hlt
    exact absurd hlt (by decide)

/-- A call of a code with so many registers that their size is zero in 32 bits. -/
def vastCall : Call where
  code := ⟨⟨0, 3, { Code.ofName [] with data := #[Word.ofOpcode .nop], registerCount := 0x80000000 }, #[]⟩, 0⟩
  callee := Value.undefined
  this := Value.undefined
  args := []
  env := 0
  construct := false

/-- A frame without its registers is given out. -/
theorem pushFrame_vastCall : vastCall.code.unit.code.validate.isOk = true ∧
    ∃ frame m', (ofConfig ⟨0, 0, 0⟩).pushFrame 0 vastCall = some (frame, m') ∧
      ¬ LaidOut (ofConfig ⟨0, 0, 0⟩) m' 0 frame vastCall := by
  have hfits : (ofConfig ⟨0, 0, 0⟩).frameFits vastCall = true := by
    rw [frameFits, (ofConfig_contextWord _).1, (ofConfig_contextWord _).2]
    decide
  refine ⟨by decide +kernel, _, _, if_pos hfits, fun hlaid => ?_⟩
  have hlt := (@stackPlaced_ofConfig ⟨0, 0, 0⟩ (by decide)).registers_lt hlaid
  exact absurd hlt (by decide)

end Machine

end RegisterJit
