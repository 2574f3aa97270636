import RegisterJit.Machine.State

/-!
# Registers and memory

What is read from a processor after it has been changed: the register or the word that was written,
and everything else as it was. Leaving the host changes two words of the context and the registers of
the stack, so compiled code goes on at the address on its native stack, in the frame that was saved.

Compiled code and the host share a page of context, a stack of frames and a native stack. `Beyond` and
`OnRegisterStack` name the addresses outside that page and the frames, so that a write to one of the regions is
known to leave the words of the others alone. `answered` is the processor as the host leaves it, and
`resume_spec` says where compiled code goes on: at the address on its native stack, in the frame that was saved.
These are rewriting rules for everything that follows a machine, in `Frames`, `Delivery`, `Slots` and
`Permanence`.
-/

namespace RegisterJit

namespace X86

namespace Memory

theorem read_write (m : Memory) (a w b : UInt64) :
    (m.write a w).read b = if a = b then w else m.read b := by
  rw [read, write, Std.HashMap.getD_insert]
  by_cases h : a = b <;> simp [h, read]

end Memory

namespace Cpu

variable (c : Cpu) (r : Reg) (x a w b : UInt64) (f : Flags)

theorem reg_setReg (r' : Reg) :
    (c.setReg r x).reg r' = if r.slot = r'.slot then x else c.reg r' := by
  rw [reg, setReg]
  by_cases h : r.slot = r'.slot
  · rw [if_pos h]
    simp [h]
  · rw [if_neg h, reg]
    exact Vector.getElem_set_ne r.slot.isLt r'.slot.isLt fun h' => h (Fin.ext h')

theorem reg_setReg_of_ne {r r' : Reg} (h : r.slot ≠ r'.slot) : (c.setReg r x).reg r' = c.reg r' := by
  rw [reg_setReg, if_neg h]

@[simp] theorem reg_setReg_self : (c.setReg r x).reg r = x := by rw [reg_setReg, if_pos rfl]

@[simp] theorem reg_write : (c.write a w).reg r = c.reg r := rfl

@[simp] theorem reg_jump : (c.jump a).reg r = c.reg r := rfl

@[simp] theorem reg_setFlags : (c.setFlags f).reg r = c.reg r := rfl

@[simp] theorem reg_setXmm (v : Xmm) : (c.setXmm v x).reg r = c.reg r := rfl

@[simp] theorem rip_setReg : (c.setReg r x).rip = c.rip := rfl

@[simp] theorem rip_write : (c.write a w).rip = c.rip := rfl

@[simp] theorem rip_jump : (c.jump a).rip = a := rfl

@[simp] theorem rip_setFlags : (c.setFlags f).rip = c.rip := rfl

@[simp] theorem rip_setXmm (v : Xmm) : (c.setXmm v x).rip = c.rip := rfl

@[simp] theorem memory_setReg : (c.setReg r x).memory = c.memory := rfl

@[simp] theorem memory_jump : (c.jump a).memory = c.memory := rfl

@[simp] theorem memory_setFlags : (c.setFlags f).memory = c.memory := rfl

@[simp] theorem memory_setXmm (v : Xmm) : (c.setXmm v x).memory = c.memory := rfl

@[simp] theorem read_setReg : (c.setReg r x).read b = c.read b := rfl

@[simp] theorem read_jump : (c.jump a).read b = c.read b := rfl

@[simp] theorem read_setFlags : (c.setFlags f).read b = c.read b := rfl

theorem read_write : (c.write a w).read b = if a = b then w else c.read b :=
  Memory.read_write c.memory a w b

@[simp] theorem read_write_self : (c.write a w).read a = w := by rw [read_write, if_pos rfl]

@[simp] theorem pop_word : c.pop.1 = c.read (c.reg .rsp) := rfl

@[simp] theorem read_pop : c.pop.2.read b = c.read b := rfl

@[simp] theorem reg_pop_rsp : c.pop.2.reg .rsp = c.reg .rsp + 8 := reg_setReg_self ..

theorem reg_pop_of_ne {r : Reg} (h : Reg.rsp.slot ≠ r.slot) : c.pop.2.reg r = c.reg r :=
  reg_setReg_of_ne _ _ h

end Cpu

end X86

namespace Machine

variable (m : Machine) (a w b : UInt64)

theorem readWord_writeWord :
    (m.writeWord a w).readWord b = if a = b then w else m.readWord b :=
  X86.Cpu.read_write m.cpu a w b

theorem readWord_writeWord_of_ne {m : Machine} {a b : UInt64} (h : a ≠ b) (w : UInt64) :
    (m.writeWord a w).readWord b = m.readWord b := by rw [readWord_writeWord, if_neg h]

@[simp] theorem readWord_writeWord_self : (m.writeWord a w).readWord a = w := by
  rw [readWord_writeWord, if_pos rfl]

theorem contextWord_setContextWord_self (d : Int32) : (m.setContextWord d w).contextWord d = w :=
  readWord_writeWord_self ..

theorem contextWord_setContextWord_of_ne {d d' : Int32}
    (h : X86.displacementWord d ≠ X86.displacementWord d') :
    (m.setContextWord d w).contextWord d' = m.contextWord d' :=
  readWord_writeWord_of_ne (fun e => h ((UInt64.add_right_inj _).1 e)) w

@[simp] theorem context_writeWord : (m.writeWord a w).context = m.context := rfl

@[simp] theorem context_setContextWord (d : Int32) : (m.setContextWord d w).context = m.context := rfl

@[simp] theorem context_setFrameWord (frame : UInt64) (d : Int32) :
    (m.setFrameWord frame d w).context = m.context := rfl

end Machine

/-! ## Returning to compiled code -/

namespace Machine

variable {m : Machine}

/-- An address after the page of the context. -/
def Beyond (m : Machine) (a : UInt64) : Prop := m.context.toNat + pageSize ≤ a.toNat

/-- An address on the register stack. -/
def OnRegisterStack (m : Machine) (a : UInt64) : Prop := m.Beyond a ∧ a.toNat < m.nativeBase.toNat

theorem Beyond.ne_context {a : UInt64} (h : m.Beyond a) {k : UInt64} (hk : k.toNat < pageSize) :
    m.context + k ≠ a := by
  rintro rfl
  have hlt := (m.context + k).toNat_lt
  rw [Beyond, UInt64.toNat_add] at h
  rw [UInt64.toNat_add] at hlt
  have := m.context.toNat_lt
  simp only [pageSize] at h hk
  omega

theorem leaveHost_read (m : Machine) {a : UInt64} (hsp : m.context + 56 ≠ a)
    (hhost : m.hostStack ≠ a) : m.leaveHost.readWord a = m.readWord a := by
  have hhost' : (m.setContextWord Context.hostSP m.hostStack).hostStack ≠ a := hhost
  have hsp' : m.context + X86.displacementWord Context.hostSP ≠ a := hsp
  change ((m.setContextWord Context.hostSP m.hostStack).writeWord _ hostAddress).readWord a = _
  rw [readWord_writeWord_of_ne hhost', setContextWord, readWord_writeWord_of_ne hsp']

theorem leaveHost_context (m : Machine) : m.leaveHost.context = m.context := rfl

theorem leaveHost_contextWord (m : Machine) {d : Int32} (hsp : (56 : UInt64) ≠ X86.displacementWord d)
    (hhost : (4088 : UInt64) ≠ X86.displacementWord d) :
    m.leaveHost.contextWord d = m.contextWord d := by
  rw [contextWord, contextWord, leaveHost_context,
    leaveHost_read m (fun h => hsp ((UInt64.add_right_inj _).1 h))
      fun h => hhost ((UInt64.add_right_inj _).1 h)]

theorem leaveHost_rsp (m : Machine) :
    m.leaveHost.cpu.reg .rsp = m.contextWord Context.nativeSP := by
  have hread := leaveHost_contextWord m (d := Context.nativeSP) (by decide) (by decide)
  rw [← hread, leaveHost, X86.Cpu.reg_setReg_self]
  rfl

def restoreRegister (m : Machine) (p : X86.Reg × Int32) : Machine :=
  { m with cpu := m.cpu.setReg p.1 (m.contextWord p.2) }

theorem foldl_restoreRegister (rs : List (X86.Reg × Int32)) (m : Machine) :
    (rs.foldl restoreRegister m).cpu.memory = m.cpu.memory ∧
      (rs.foldl restoreRegister m).context = m.context ∧
      ∀ r, (∀ p ∈ rs, p.1.slot ≠ r.slot) →
        (rs.foldl restoreRegister m).cpu.reg r = m.cpu.reg r := by
  induction rs generalizing m with
  | nil => exact ⟨rfl, rfl, fun _ _ => rfl⟩
  | cons p rs ih =>
    obtain ⟨hmemory, hcontext, hreg⟩ := ih (m.restoreRegister p)
    refine ⟨hmemory, hcontext, fun r hr => (hreg r fun q hq => hr q (List.mem_cons_of_mem _ hq)).trans ?_⟩
    exact X86.Cpu.reg_setReg_of_ne _ _ (hr p (List.mem_cons_self ..))

def restored (m : Machine) : Machine := keptRegisters.foldl restoreRegister m.leaveHost

/-- The processor that is about to return from a stub. -/
def answered (m : Machine) (r0 r1 : UInt64) : X86.Cpu :=
  ((m.cpu.setReg .r13 m.context).setReg .rax r0).setReg .rdx r1

theorem answered_reg (m : Machine) (r0 r1 : UInt64) {r : X86.Reg} (h0 : X86.Reg.rax.slot ≠ r.slot)
    (h1 : X86.Reg.rdx.slot ≠ r.slot) (h2 : X86.Reg.r13.slot ≠ r.slot) :
    (m.answered r0 r1).reg r = m.cpu.reg r := by
  rw [answered, X86.Cpu.reg_setReg_of_ne _ _ h1, X86.Cpu.reg_setReg_of_ne _ _ h0,
    X86.Cpu.reg_setReg_of_ne _ _ h2]

theorem answered_read (m : Machine) (r0 r1 a : UInt64) :
    (m.answered r0 r1).read a = m.readWord a := by
  rw [answered, X86.Cpu.read_setReg, X86.Cpu.read_setReg, X86.Cpu.read_setReg, readWord]

theorem resume_eq (m : Machine) (r0 r1 : UInt64) :
    m.resume r0 r1 = { m.restored with
      cpu := (m.restored.answered r0 r1).pop.2.jump (m.restored.answered r0 r1).pop.1 } := rfl

theorem resume_cpu (m : Machine) (r0 r1 : UInt64) :
    (m.resume r0 r1).cpu = (m.restored.answered r0 r1).pop.2.jump
      (m.restored.answered r0 r1).pop.1 := by rw [resume_eq]

theorem restored_read (m : Machine) (a : UInt64) : m.restored.readWord a = m.leaveHost.readWord a := by
  rw [readWord, readWord, X86.Cpu.read, X86.Cpu.read, restored,
    (foldl_restoreRegister keptRegisters m.leaveHost).1]

theorem restored_r12 (m : Machine) :
    m.restored.cpu.reg .r12 = m.leaveHost.contextWord Context.savedR12 := by
  let front : List (X86.Reg × Int32) := [(.rbx, Context.savedRBX), (.rbp, Context.savedRBP)]
  let back : List (X86.Reg × Int32) := [(.r14, Context.savedR14), (.r15, Context.savedR15)]
  have hsplit : keptRegisters = front ++ (.r12, Context.savedR12) :: back := rfl
  obtain ⟨hmemory, hcontext, -⟩ := foldl_restoreRegister front m.leaveHost
  obtain ⟨-, -, hback⟩ := foldl_restoreRegister back
    ((front.foldl restoreRegister m.leaveHost).restoreRegister (.r12, Context.savedR12))
  rw [restored, hsplit, List.foldl_append, List.foldl_cons, hback .r12 (by decide), restoreRegister,
    X86.Cpu.reg_setReg_self, contextWord, contextWord, readWord, readWord, X86.Cpu.read,
    X86.Cpu.read, hmemory, hcontext]

theorem restored_rsp (m : Machine) : m.restored.cpu.reg .rsp = m.contextWord Context.nativeSP := by
  rw [restored, (foldl_restoreRegister keptRegisters m.leaveHost).2.2 .rsp (by decide), leaveHost_rsp]

theorem resume_context (m : Machine) (r0 r1 : UInt64) : (m.resume r0 r1).context = m.context := by
  rw [resume_eq, restored]
  exact (foldl_restoreRegister keptRegisters m.leaveHost).2.1.trans (leaveHost_context m)

theorem resume_contextWord (m : Machine) (r0 r1 : UInt64) {d : Int32}
    (hsp : (56 : UInt64) ≠ X86.displacementWord d) (hhost : (4088 : UInt64) ≠ X86.displacementWord d) :
    (m.resume r0 r1).contextWord d = m.contextWord d := by
  rw [contextWord, readWord, resume_context, resume_cpu, X86.Cpu.read_jump, X86.Cpu.read_pop,
    answered_read, restored_read, ← leaveHost_contextWord m hsp hhost, contextWord, leaveHost_context]

/-- Compiled code goes on at the address on top of its native stack, in the frame that was saved. -/
theorem resume_spec (m : Machine) (r0 r1 : UInt64) (hsp : m.Beyond (m.contextWord Context.nativeSP))
    (hhost : m.hostStack ≠ m.contextWord Context.nativeSP) :
    (m.resume r0 r1).cpu.rip = m.readWord (m.contextWord Context.nativeSP) ∧
      (m.resume r0 r1).cpu.reg .r12 = m.contextWord Context.savedR12 ∧
      (m.resume r0 r1).cpu.reg .rsp = m.contextWord Context.nativeSP + 8 := by
  have hread := leaveHost_read m (hsp.ne_context (k := 56) (by decide)) hhost
  have hframe := leaveHost_contextWord m (d := Context.savedR12) (by decide) (by decide)
  have hrsp : (m.restored.answered r0 r1).reg .rsp = m.contextWord Context.nativeSP := by
    rw [answered_reg _ _ _ (by decide) (by decide) (by decide), restored_rsp]
  rw [resume_cpu]
  refine ⟨?_, ?_, ?_⟩
  · rw [X86.Cpu.rip_jump, X86.Cpu.pop_word, hrsp, answered_read, restored_read, hread]
  · rw [X86.Cpu.reg_jump, X86.Cpu.reg_pop_of_ne _ (by decide),
      answered_reg _ _ _ (by decide) (by decide) (by decide), restored_r12, hframe]
  · rw [X86.Cpu.reg_jump, X86.Cpu.reg_pop_rsp, hrsp]

theorem setContextWord_read {d : Int32} {a : UInt64} (h : m.context + X86.displacementWord d ≠ a)
    (w : UInt64) : (m.setContextWord d w).readWord a = m.readWord a := readWord_writeWord_of_ne h w

theorem setFrameWord_read {frame : UInt64} {d : Int32} {a : UInt64}
    (h : frame + X86.displacementWord d ≠ a) (w : UInt64) :
    (m.setFrameWord frame d w).readWord a = m.readWord a := readWord_writeWord_of_ne h w

end Machine

end RegisterJit
