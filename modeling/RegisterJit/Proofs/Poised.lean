import RegisterJit.Proofs.Decisions

/-!
# Poised machines

A unit that is compiled and linked alone, and a machine that is about to run an image at some address: its
registers with a fixed role are set, and everything else is zero.

Examples of runs need a machine that is running compiled code. To compile, link and decode a program inside a
proof would be slow, so the work is split: whether a unit compiles and links is decided once by evaluation
(`linksAlone`, `piecesLinkAlone`), `exists_session` gives a session and an image from this, `exists_call` the
place of a call in it, and `poised` is the machine in front of the code, with memory that is zero. `Branching`
and `Subroutines` apply their theorems to such machines.
-/

namespace RegisterJit

open X86 (Reg Cpu)

/-! ## A unit alone -/

theorem Session.PlacedIn.loaded {s : Session} {image : Image} (h : s.PlacedIn image)
    (hshort : s.size < 2 ^ 31) (hbase : 0 < image.base.toNat) :
    Loaded #[LoadedImage.ofImage image] s image := by
  refine ⟨h.placed, hshort, hbase, fun pc hpc => ⟨LoadedImage.ofImage image, ?_, rfl⟩⟩
  rw [← Array.find?_toList]
  exact List.find?_cons_of_pos hpc

namespace CodeUnit

/-- The session and the image of a unit that is compiled alone. -/
theorem exists_session {u : CodeUnit} (h : u.linksAlone = true) : ∃ i s image c,
    Session.start.compile [some u] = (.ok i, s) ∧ s.PlacedIn image ∧
      Loaded #[LoadedImage.ofImage image] s image ∧ image.base = 0x10000 ∧ c ∈ s.programs.toList ∧
      c.unit = u := by
  obtain ⟨i, s, image, c, hcompile, hplaced, hshort, hbase, hc, hunit⟩ := exists_placed h
  exact ⟨i, s, image, c, hcompile, hplaced, hplaced.loaded hshort (by rw [hbase]; decide), hbase, hc, hunit⟩

theorem exists_image {u : CodeUnit} (h : u.linksAlone = true) : ∃ s image c, s.PlacedIn image ∧
    Loaded #[LoadedImage.ofImage image] s image ∧ image.base = 0x10000 ∧ c ∈ s.programs.toList ∧
      c.unit = u := by
  obtain ⟨-, s, image, c, -, himage⟩ := exists_session h
  exact ⟨s, image, c, himage⟩

/-- The image of a unit that is compiled alone, and the place to which a call in it returns. -/
theorem exists_call {u : CodeUnit} {offset : UInt32} (h : u.linksAlone = true)
    (hcalls : u.callsAlone offset = true) : ∃ s image c place, s.PlacedIn image ∧
      Loaded #[LoadedImage.ofImage image] s image ∧ image.base = 0x10000 ∧ c ∈ s.programs.toList ∧
      c.unit = u ∧ s.Calls c.unit.key offset place := by
  obtain ⟨i, s, image, c, hcompile, hplaced, hloaded, hbase, hc, hunit⟩ := exists_session h
  obtain ⟨place, hplace⟩ := calls_of_callsAlone hcompile hcalls
  exact ⟨s, image, c, place, hplaced, hloaded, hbase, hc, hunit, hunit ▸ hplace⟩

end CodeUnit

/-! ## A machine about to run -/

namespace Machine

def poisedFrame : UInt64 := dataBase + 8192

/-- A machine that is about to run an image at an address. -/
def poised (img : LoadedImage) (pc : UInt64) : Machine where
  codeMemory := CodeMemory.ofSize codeBase 0
  context := dataBase
  nativeBase := nativeStackBase
  nativeEnd := nativeStackBase + 4096
  codes := #[]
  images := #[img]
  depth := 1
  cpu := (((((Cpu.blank.setReg contextReg dataBase).setReg maskReg Value.numberMask).setReg .rsp
    (nativeStackBase + 1024)).setReg frameReg poisedFrame).write (dataBase + 56)
    (dataBase + 4088)).jump pc

variable (img : LoadedImage) (pc : UInt64)

theorem poised_regs : (poised img pc).cpu.reg contextReg = dataBase ∧
    (poised img pc).cpu.reg maskReg = Value.numberMask ∧
    (poised img pc).cpu.reg .rsp = nativeStackBase + 1024 ∧
    (poised img pc).cpu.reg frameReg = poisedFrame ∧ (poised img pc).cpu.reg .rax = 0 :=
  ⟨rfl, rfl, rfl, rfl, rfl⟩

theorem poised_read (a : UInt64) :
    (poised img pc).readWord a = if dataBase + 56 = a then dataBase + 4088 else 0 := by
  rw [readWord, poised, X86.Cpu.read_jump, X86.Cpu.read_write]
  split
  · rfl
  · exact Std.HashMap.getD_empty

theorem poised_orderly : (poised img pc).Orderly := by
  refine ⟨fun a ha b hb pc' _ _ => ?_,
    show dataBase.toNat + pageSize ≤ nativeStackBase.toNat by decide,
    show (nativeStackBase + 4096).toNat + 16 < 2 ^ 64 by decide⟩
  rw [show (poised img pc).images.toList = [img] from rfl, List.mem_singleton] at ha hb
  rw [ha, hb]

variable {s : Session} {image : Image}

theorem poised_running (h : Loaded #[img] s image) : (poised img pc).Running s image := by
  obtain ⟨hcontext, hmask, hrsp, -⟩ := poised_regs img pc
  refine ⟨h, poised_orderly img pc, hcontext, hmask, ?_, ?_, ?_, ?_⟩
  · exact (poised_read img pc _).trans (if_pos rfl)
  · exact (poised_read img pc _).trans (if_neg (show dataBase + 56 ≠ dataBase + 4088 by decide))
  · rw [hrsp]
    exact show nativeStackBase.toNat + 8 ≤ (nativeStackBase + 1024).toNat by decide
  · rw [hrsp]
    exact show (nativeStackBase + 1024).toNat ≤ (nativeStackBase + 4096).toNat by decide

theorem poised_reaches (h : Loaded #[img] s image) {c : CompiledUnit} {offset : UInt32} {place : Nat}
    (hstarts : s.Starts c offset place) :
    (poised img (image.address place)).Reaches s image c offset :=
  ⟨poised_running img _ h, place, hstarts, rfl⟩

theorem poised_slot {r : Register} (hr : (Frame.registerOffset? r).all fun d =>
    decide (dataBase.toNat + pageSize ≤ (poisedFrame + X86.displacementWord d).toNat ∧
      (poisedFrame + X86.displacementWord d).toNat < nativeStackBase.toNat)) {d : Int32}
    (hd : Frame.registerOffset? r = some d) :
    (poised img pc).OnRegisterStack ((poised img pc).cpu.reg frameReg + X86.displacementWord d) := by
  rw [hd, Option.all_some, decide_eq_true_eq] at hr
  rw [(poised_regs img pc).2.2.2.1]
  exact hr

end Machine

end RegisterJit
