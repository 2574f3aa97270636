import RegisterJit.Proofs.Decoding
import RegisterJit.Proofs.Frames
import RegisterJit.Proofs.Placement

/-!
# Running linked code

What the processor does with the bytes of a linked image is what the pieces say that they stand for:
an instruction is fetched from its place, and a jump leads to its label. `Piece.exec` runs pieces
without their places; `Loaded.exec` says that the processor does the same.

`Cpu.Goes` is a run of the processor outside the host, with fetched bytes, and `Loaded` what it means that an
image stands in memory. `fetch` finds the instruction of a piece at its place, by the encoding and the field
that linking filled in; `step` executes it, and `address_rel` computes where its jump leads. What an instruction
does apart from where control goes does not depend on its place (`Cpu.execute_straight`), which is why pieces
can be run without places. `Following` runs whole stretches, and no later module looks at bytes.
-/

namespace RegisterJit

open X86 (Reg Cond Instr Label Cpu)

namespace X86

/-! ## Steps -/

namespace Cpu

/-- The processor goes from one state to another in some steps, all of them outside the host. -/
inductive Goes (images : Array LoadedImage) : Cpu → Cpu → Prop
  | refl (c : Cpu) : Goes images c c
  | step {c d e : Cpu} {i : Instr} {next : UInt64} (outside : c.rip ≠ Machine.hostAddress)
      (fetched : Machine.fetch images c.rip = some (i, next)) (executed : c.execute next i = some d)
      (rest : Goes images d e) : Goes images c e

variable {images : Array LoadedImage} {c d e : Cpu}

theorem Goes.trans (h : Goes images c d) (h' : Goes images d e) : Goes images c e := by
  induction h with
  | refl => exact h'
  | step outside fetched executed _ ih => exact .step outside fetched executed (ih h')

/-- The processor goes from one state to another, and `Q` holds of each instruction that it executes with the
address where that stands. -/
inductive Passes (images : Array LoadedImage) (Q : UInt64 → Instr → Prop) : Cpu → Cpu → Prop
  | refl (c : Cpu) : Passes images Q c c
  | step {c d e : Cpu} {i : Instr} {next : UInt64} (inside : Q c.rip i)
      (fetched : Machine.fetch images c.rip = some (i, next)) (executed : c.execute next i = some d)
      (rest : Passes images Q d e) : Passes images Q c e

/-- An instruction outside the host that does not jump to an address in a register. -/
def Direct (a : UInt64) (i : Instr) : Prop := a ≠ Machine.hostAddress ∧ ∀ r, i ≠ .jmpReg r

theorem Passes.trans {Q : UInt64 → Instr → Prop} (h : Passes images Q c d) (h' : Passes images Q d e) :
    Passes images Q c e := by
  induction h with
  | refl => exact h'
  | step inside fetched executed _ ih => exact .step inside fetched executed (ih h')

theorem Passes.mono {Q Q' : UInt64 → Instr → Prop} (h : Passes images Q c d) (hQ : ∀ a i, Q a i → Q' a i) :
    Passes images Q' c d := by
  induction h with
  | refl => exact .refl _
  | step inside fetched executed _ ih => exact .step (hQ _ _ inside) fetched executed ih

theorem Passes.goes (h : Passes images Direct c d) : Goes images c d := by
  induction h with
  | refl => exact .refl _
  | step inside fetched executed _ ih => exact .step inside.1 fetched executed ih

/-- A run goes on from every state that it goes through. -/
theorem Goes.runCode (h : Goes images c d) :
    ∃ n, ∀ fuel, Machine.runCode images (n + fuel) c = Machine.runCode images fuel d := by
  induction h with
  | refl c => exact ⟨0, fun fuel => by rw [Nat.zero_add]⟩
  | step outside fetched executed _ ih =>
    obtain ⟨n, hn⟩ := ih
    refine ⟨n + 1, fun fuel => ?_⟩
    rw [Nat.add_right_comm, Machine.runCode, if_neg outside, fetched]
    simp only [executed]
    exact hn fuel

@[simp] theorem jump_jump (a b : UInt64) : (c.jump a).jump b = c.jump b := rfl

@[simp] theorem jump_rip : c.jump c.rip = c := rfl

@[simp] theorem flags_jump (a : UInt64) : (c.jump a).flags = c.flags := rfl

@[simp] theorem jump_setReg (a : UInt64) (r : Reg) (x : UInt64) :
    (c.jump a).setReg r x = (c.setReg r x).jump a := rfl

end Cpu

@[simp] def Instr.straight : Instr → Bool
  | .jmp _ | .jcc .. | .call _ | .jmpReg _ | .callReg _ | .callMem .. | .ret | .ud2 => false
  | .mov .. | .movImm64 .. | .movImm32 .. | .movImmSigned .. | .load .. | .store .. | .lea ..
  | .alu .. | .aluImm .. | .test .. | .imul .. | .neg32 _ | .not32 _ | .shift32 .. | .rol .. | .cdq
  | .idiv32 _ | .movsxd .. | .movzx8 .. | .setcc .. | .cmov .. | .cvtsi2sd .. | .movqFrom ..
  | .movqTo .. | .push _ | .pop _ | .nop => true

theorem Cpu.execute_straight {i : Instr} (h : i.straight = true) (c : Cpu) (a next : UInt64) :
    (c.jump a).execute next i = (c.execute c.rip i).map fun d => d.jump next := by
  cases i with
  | alu op w dst src => cases op <;> rfl
  | aluImm op w dst imm => cases op <;> rfl
  | shift32 op dst =>
    by_cases h0 : (c.reg .rcx).toUInt32 &&& 31 = 0
    · simp only [execute, shift, reg_jump, h0, if_true, Option.map_some]
      cases op <;> rfl
    · simp only [execute, shift, reg_jump, h0, if_false, Option.map_some]
      cases op <;> rfl
  | idiv32 src =>
    simp only [execute, divide, apply_ite (Option.map fun d : Cpu => d.jump next), Option.map_none,
      Option.map_some]
    rfl
  | cmov cond dst src =>
    simp only [execute, Option.map_some, apply_ite (fun d : Cpu => d.jump next)]
    rfl
  | jmp _ | jcc _ _ | call _ | jmpReg _ | callReg _ | callMem _ _ | ret | ud2 => cases h
  | _ => rfl

/-! ## Fetching -/

theorem length_memory_le (reg : Nat) (base : Reg) (disp : Int32) :
    (memory reg base disp).length ≤ 6 := by
  have hindex (p : Prop) [Decidable p] : (if p then [(0x24 : UInt8)] else []).length ≤ 1 := by
    split <;> decide
  unfold memory
  dsimp only
  split
  · have := hindex (base = .rsp ∨ base = .r12)
    simp only [List.length_cons]
    omega
  split
  · have := hindex (base = .rsp ∨ base = .r12)
    simp only [List.length_cons, List.length_append, List.length_nil]
    omega
  · have := hindex (base = .rsp ∨ base = .r12)
    simp only [List.length_cons, List.length_append, length_imm32]
    omega

theorem length_rexNarrow_le (reg rm : Reg) : (rexNarrow reg rm).length ≤ 1 := by
  unfold rexNarrow
  split <;> simp

theorem length_rex_le (w : Width) (reg rm : Reg) : (rex w reg rm).length ≤ 1 := by
  cases w with
  | w64 => exact Nat.le_refl 1
  | w32 => exact length_rexNarrow_le reg rm

theorem length_encode_bounds (i : Instr) : 0 < i.encode.length ∧ i.encode.length ≤ 15 := by
  have hmemory := length_memory_le
  have hnarrow := length_rexNarrow_le
  have hrex := length_rex_le
  cases i with
  | aluImm op w dst imm =>
    have := hrex w .none dst
    simp only [Instr.encode]
    split <;> simp <;> omega
  | setcc c dst =>
    simp only [Instr.encode]
    split <;> simp
  | mov w a b | alu op w a b => have := hrex w b a; simp [Instr.encode]; omega
  | test w a b => have := hrex w b a; simp [Instr.encode]; omega
  | imul w a b => have := hrex w a b; simp [Instr.encode]; omega
  | load a b d | lea a b d => have := hmemory a.low b d; simp [Instr.encode]; omega
  | store b d a => have := hmemory a.low b d; simp [Instr.encode]; omega
  | callMem b d =>
    have := hmemory 2 b d
    have := hnarrow .none b
    simp [Instr.encode]
    omega
  | movImm32 a _ | neg32 a | not32 a | shift32 _ a | idiv32 a | jmpReg a | callReg a | push a
  | pop a => have := hnarrow .none a; simp [Instr.encode]; omega
  | movImm64 _ _ | movImmSigned _ _ | rol _ _ | cdq | movsxd _ _ | movzx8 _ _ | cmov _ _ _
  | cvtsi2sd _ _ | movqFrom _ _ | movqTo _ _ | jmp _ | jcc _ _ | call _ | ret | nop | ud2 =>
    simp [Instr.encode]

end X86

/-- The instruction at an offset of some code is the one that its bytes encode. -/
theorem instructionAt?_of_drop {code : Array UInt8} {k : Nat} {i : Instr} {rest : List UInt8}
    (hknown : i.known = true) (hdrop : code.toList.drop k = i.encode ++ rest) :
    instructionAt? code k = some (i, i.encode.length) := by
  have hbounds := X86.length_encode_bounds i
  have hbytes : (code.extract k (k + 15)).toList = i.encode ++ rest.take (15 - i.encode.length) := by
    rw [Array.toList_extract, List.extract_eq_take_drop, hdrop, Nat.add_sub_cancel_left,
      List.take_append, List.take_of_length_le hbounds.2]
  rw [instructionAt?, hbytes, X86.decode_instr hknown, Option.map_some, List.length_append]
  dsimp only
  rw [Nat.add_sub_cancel]

/-! ## Images that are loaded -/

/-- The address of a place in the code of an image. -/
def Image.address (image : Image) (place : Nat) : UInt64 := image.base + place.toUInt64

namespace Session

/-- The displacements of labels in a session that is placed. -/
def rel (s : Session) : Nat → Label → Int32 := Piece.displacement s.placeOf

/-- The word that stands for a label in an image. -/
def word (s : Session) (image : Image) (l : Label) : UInt64 :=
  (Value.ofAddress (image.address (s.placeOf l))).word

end Session

/-- An image that is among those of a machine, with the session it was linked from. Displacements have
32 bits, so its code is shorter than `2 ^ 31` bytes. -/
structure Loaded (images : Array LoadedImage) (s : Session) (image : Image) : Prop where
  placed : ∃ parts, s.Placed parts image
  short : s.size < 2 ^ 31
  positive : 0 < image.base.toNat
  found : ∀ pc, image.contains pc = true →
    ∃ loaded : LoadedImage, images.find? (fun img => img.contains pc) = some loaded ∧
      loaded.toImage = image

/-- An instruction of the code of an image below a place that does not jump to an address in a register. -/
def Image.Direct (image : Image) (limit : Nat) (a : UInt64) (i : Instr) : Prop :=
  (∃ place < limit, a = image.address place) ∧ ∀ r, i ≠ .jmpReg r

theorem Image.address_displacement (image : Image) {place target : Nat} {d : Int32}
    (hplace : (place : Int) + d.toInt = target) :
    image.address place + X86.displacementWord d = image.address target := by
  have hd := X86.toNat_displacementWord d
  have hbase := image.base.toNat_lt
  rw [address, address, UInt64.add_assoc, UInt64.add_right_inj, ← UInt64.toNat_inj,
    UInt64.toNat_add, Nat.toUInt64_eq, Nat.toUInt64_eq, UInt64.toNat_ofNat', UInt64.toNat_ofNat']
  omega

theorem Image.address_add (image : Image) (place n : Nat) :
    image.address (place + n) = image.address place + n.toUInt64 := by
  rw [address, address, UInt64.add_assoc, Nat.toUInt64_eq, Nat.toUInt64_eq, Nat.toUInt64_eq,
    UInt64.ofNat_add]

namespace Loaded

variable {images : Array LoadedImage} {s : Session} {image : Image} (h : Loaded images s image)

include h

theorem laid : s.Laid := by
  obtain ⟨parts, hplaced⟩ := h.placed
  exact hplaced.comprises.laid

theorem linked : s.Linked image := by
  obtain ⟨parts, hplaced⟩ := h.placed
  exact hplaced.linked

theorem room : image.base.toNat + s.size < 2 ^ 64 := by
  obtain ⟨parts, hplaced⟩ := h.placed
  exact hplaced.room

theorem toNat_address {place : Nat} (hplace : place ≤ s.size) :
    (image.address place).toNat = image.base.toNat + place := by
  have hroom := h.room
  rw [Image.address, UInt64.toNat_add, Nat.toUInt64_eq, UInt64.toNat_ofNat']
  omega

theorem address_ne_host {place : Nat} (hplace : place ≤ s.size) :
    image.address place ≠ Machine.hostAddress := by
  intro heq
  have hzero := h.toNat_address hplace
  have hpositive := h.positive
  rw [heq] at hzero
  change 0 = _ at hzero
  omega

/-- The instruction whose bytes are at a place is the one that is fetched there. -/
theorem fetch {place : Nat} {i : Instr} {rest : List UInt8} (hknown : i.known = true)
    (hdrop : image.code.toList.drop place = i.encode ++ rest) :
    Machine.fetch images (image.address place) =
      some (i, image.address (place + i.encode.length)) := by
  have hsize := h.linked.size_eq h.laid
  have hbounds := X86.length_encode_bounds i
  have hlength := congrArg List.length hdrop
  rw [List.length_drop, List.length_append, Array.length_toList, hsize] at hlength
  have haddress := h.toNat_address (show place ≤ s.size by omega)
  have hroom := h.room
  have hend : (image.base + image.code.size.toUInt64).toNat = image.base.toNat + s.size := by
    rw [hsize]
    exact h.toNat_address (Nat.le_refl _)
  have hcontains : image.contains (image.address place) = true := by
    simp only [Image.contains, Bool.and_eq_true, decide_eq_true_eq, UInt64.le_iff_toNat_le,
      UInt64.lt_iff_toNat_lt, hend, haddress]
    omega
  obtain ⟨loaded, hfound, rfl⟩ := h.found _ hcontains
  have hoffset : (loaded.address place - loaded.base).toNat = place := by
    rw [UInt64.toNat_sub_of_le _ _ (by rw [UInt64.le_iff_toNat_le]; omega), haddress]
    omega
  have hinstruction : loaded.instruction? place = some (i, i.encode.length) := by
    rw [LoadedImage.instruction?, loaded.decoded_eq, Array.getD_eq_getD_getElem?,
      Array.getElem?_ofFn, dif_pos (by omega), Option.getD_some]
    exact instructionAt?_of_drop hknown hdrop
  rw [Machine.fetch, hfound]
  simp only [hoffset, hinstruction]
  rw [Image.address_add]

theorem drop_piece {before after : List Piece} {p : Piece}
    (hpieces : s.pieces.toList = before ++ p :: after) :
    ∃ rest, image.code.toList.drop (Piece.endFrom 0 before) =
      p.bytes s.rel (s.word image) (Piece.endFrom 0 before) ++ rest := by
  have hlength := Piece.length_bytesFrom s.rel (s.word image) 0 before
  have hcode : image.code.toList = Piece.bytesFrom s.rel (s.word image) 0 before ++
      (p.bytes s.rel (s.word image) (Piece.endFrom 0 before) ++
        Piece.bytesFrom s.rel (s.word image)
          (Piece.endFrom 0 before + p.size (Piece.endFrom 0 before)) after) := by
    rw [h.linked.code, Session.finished, hpieces, Piece.bytesFrom_append]
    rfl
  exact ⟨_, by rw [hcode, List.drop_left' (by omega)]⟩

theorem endFrom_le {before after : List Piece} (hpieces : s.pieces.toList = before ++ after) :
    Piece.endFrom 0 before ≤ s.size := by
  rw [h.laid.size_eq, hpieces]
  exact Piece.endFrom_mono (List.prefix_append ..) 0

/-- The code of an image is not the host's. -/
theorem outside {limit : Nat} (hlimit : limit ≤ s.size) {c d : Cpu}
    (hpasses : Cpu.Passes images (image.Direct limit) c d) :
    Cpu.Passes images Cpu.Direct c d :=
  hpasses.mono fun _ _ ⟨⟨_, hplace, haddress⟩, hjump⟩ =>
    ⟨haddress ▸ h.address_ne_host (Nat.le_trans (Nat.le_of_lt hplace) hlimit), hjump⟩

/-- The instruction of a piece is fetched where it stands. -/
theorem fetch_piece {before after : List Piece} {p : Piece} {i : Instr}
    (hpieces : s.pieces.toList = before ++ p :: after)
    (hinstrs : p.instrs s.rel (s.word image) (Piece.endFrom 0 before) = [i]) (hknown : i.known = true) :
    Machine.fetch images (image.address (Piece.endFrom 0 before)) =
      some (i, image.address (Piece.endFrom 0 (before ++ [p]))) := by
  obtain ⟨rest, hdrop⟩ := h.drop_piece hpieces
  have hbytes : p.bytes s.rel (s.word image) (Piece.endFrom 0 before) = i.encode := by
    rw [Piece.bytes, hinstrs, List.flatMap_cons, List.flatMap_nil, List.append_nil]
  have hend : Piece.endFrom 0 (before ++ [p]) = Piece.endFrom 0 before + i.encode.length := by
    rw [← hbytes, Piece.length_bytes, Piece.endFrom_append]
    rfl
  rw [hbytes] at hdrop
  rw [hend]
  exact h.fetch hknown hdrop

section

variable {before after : List Piece} {p : Piece} {i : Instr} (hpieces : s.pieces.toList = before ++ p :: after)
  (hinstrs : p.instrs s.rel (s.word image) (Piece.endFrom 0 before) = [i]) (hknown : i.known = true) {c d : Cpu}
  (hrip : c.rip = image.address (Piece.endFrom 0 before))
  (hexecute : c.execute (image.address (Piece.endFrom 0 (before ++ [p]))) i = some d)

include hpieces hinstrs hknown hrip hexecute

/-- An instruction of a piece is executed where it stands. -/
theorem step : Cpu.Goes images c d :=
  .step (by rw [hrip]; exact h.address_ne_host (h.endFrom_le hpieces))
    (by rw [hrip]; exact h.fetch_piece hpieces hinstrs hknown) hexecute (.refl d)

/-- An instruction of a piece is executed below a place. -/
theorem direct {limit : Nat} (hlimit : Piece.endFrom 0 (before ++ [p]) ≤ limit) (hjump : ∀ r, i ≠ .jmpReg r) :
    Cpu.Passes images (image.Direct limit) c d := by
  refine .step ⟨⟨_, Nat.lt_of_lt_of_le ?_ hlimit, hrip⟩, hjump⟩
    (by rw [hrip]; exact h.fetch_piece hpieces hinstrs hknown) hexecute (.refl d)
  have hsize : (p.bytes s.rel (s.word image) (Piece.endFrom 0 before)).length = i.encode.length := by
    rw [Piece.bytes, hinstrs, List.flatMap_cons, List.flatMap_nil, List.append_nil]
  rw [Piece.length_bytes] at hsize
  rw [Piece.endFrom_append]
  exact Nat.lt_add_of_pos_right (hsize ▸ (X86.length_encode_bounds i).1)

end

/-- The displacement of a jump leads to its label. -/
theorem address_rel {l : Label} (hl : l ∈ s.binds) {place : Nat} (hplace : place ≤ s.size) :
    image.address place + X86.displacementWord (s.rel place l) = image.address (s.placeOf l) := by
  have hshort := h.short
  have hlabel := h.laid.placeOf_le hl
  refine image.address_displacement ?_
  have hexact := Session.displacement_exact h.short hplace hlabel
  rwa [Int32.toInt32_toUInt32] at hexact

end Loaded

end RegisterJit
