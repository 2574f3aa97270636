import RegisterJit.Proofs.Executions

/-!
# The accumulator cache

The compiler keeps track of which register of the frame the accumulator holds, and does not load it again. Along every
execution in which finally blocks are used as they are meant, this is so: in front of the code of an instruction the
accumulator holds the register that is reported as cached, an operand that is taken from it is what the frame holds,
and the code of the instruction goes the same way if all operands are read from the frame.

`Piece.reread` is the code that would read an operand from the frame, and `follow_reread` compares the two ways
through the pieces of an instruction, by induction along their notes. `Spot.Opens` has the rest: by `Executions`
control is in front of a piece with a note that holds, and by `Spots` that note is what the emitter took for granted
where the instruction starts, or where it takes an operand (`cached`, `kept`, `rereads`). `accumulator_cached` puts
this together.

The assumption on finally blocks cannot be dropped. `RETURN_SUBROUTINE` goes to whatever address its register holds.
In `resumingText` a second one gets the address of an instruction for which an integer is cached, as an argument, and
enters it with the address itself in the accumulator (`accumulator_stale`). The same program, stopped before that, is
an example for the theorem: a finally block has come back and an operand is about to be taken from the accumulator.
-/

namespace RegisterJit

open X86 (Reg Instr Label Cpu)

/-! ## Reading operands again -/

/-- Control can be where a note stands, and the accumulator holds what the note says. -/
def Note.Allows (a : Note) (c : Cpu) : Prop := a.phase ≠ .never ∧ a.content.Holds c

theorem Note.Allows.fits {a b : Note} {c : Cpu} (h : a.Allows c) (hfits : a.Fits b) : b.Allows c := by
  obtain ⟨hphase, hcontent⟩ := h
  rcases hfits with hnever | ⟨heq, hsame⟩
  · exact absurd hnever hphase
  refine ⟨heq ▸ hphase, ?_⟩
  rcases hsame with hunknown | hsame
  · rw [hunknown]
    trivial
  · exact hsame ▸ hcontent

namespace Piece

/-- The piece of code that reads its operand from the frame. -/
def reread : Piece → Piece
  | .kept dst r =>
    match Frame.registerOffset? r with
    | some d => .instr (.load dst frameReg d)
    | none => .kept dst r
  | p => p

def Exit.reread : Exit → Exit
  | .stops rest c => .stops (rest.map Piece.reread) c
  | e => e

theorem bound?_reread (p : Piece) : p.reread.bound? = p.bound? := by
  cases p with
  | kept dst r =>
    rw [reread]
    split <;> rfl
  | _ => rfl

variable {Λ : Label → Note} {W : Int32 → Prop} {a b : Note} {ps : List Piece} {word : Label → UInt64} {c d : Cpu}

theorem allows_any : Note.any.Allows c :=
  ⟨by simp [Note.any], trivial⟩

theorem allows_nextInstr {i : Instr} (h : a.Allows c) (hadmits : AdmitsInstr W a i) (hi : i.straight = true)
    (heffect : c.effect i = some d) : (nextInstr a i).Allows d := by
  obtain ⟨hphase, hcontent⟩ := h
  unfold AdmitsInstr at hadmits
  unfold nextInstr
  cases hp : a.phase with
  | entry | returned => exact allows_any
  | answered | accepted => exact ⟨by simp, trivial⟩
  | entering | leaving =>
    rw [hp] at hadmits
    obtain rfl : i = _ := hadmits
    cases hi
  | compared =>
    rw [hp] at hadmits
    exact hadmits.elim
  | never => exact absurd hp hphase
  | body =>
    rw [hp] at hadmits
    have hquiet (hquiet : i.quiet = true) : Note.Allows ⟨.body, a.content.after i⟩ d :=
      ⟨by simp, hcontent.after hquiet heffect⟩
    cases i with
    | store base o src =>
      refine ⟨by simp, ?_⟩
      dsimp only
      split
      · rename_i hstore
        obtain ⟨rfl, rfl⟩ := hstore
        cases heffect
        exact (Cpu.read_write_self ..).symm
      · trivial
    | pop dst => exact ⟨by simp, trivial⟩
    | ud2 | jmpReg r => cases hi
    | _ => exact hquiet hadmits

/-- Following code with its operands read from the frame goes the same way, if the accumulator holds at the start, or
where the label is bound that was jumped to, what is known there. -/
theorem follow_reread (h : Leads Λ W a ps b) (jump : Option Label)
    (hc : match jump with | none => a.Allows c | some l => (Λ l).Allows c) :
    follow word jump (ps.map reread) c = (follow word jump ps c).reread := by
  induction ps generalizing a c jump with
  | nil => cases jump <;> rfl
  | cons p ps ih =>
    obtain ⟨hadmits, hleads⟩ := h
    cases jump with
    | some l =>
      rw [List.map_cons, follow, follow, bound?_reread]
      refine ih hleads _ ?_
      by_cases hl : p.bound? = some l
      · rw [if_pos hl]
        have hbind : p = .bind l := by cases p <;> cases hl; rfl
        exact hbind ▸ hc
      · rw [if_neg hl]
        exact hc
    | none =>
      dsimp only at hc
      cases p with
      | instr i =>
        change follow word none (.instr i :: ps.map reread) c = _
        rw [follow, follow]
        split
        · rename_i d hi heffect
          exact ih hleads none (allows_nextInstr hc hadmits hi heffect)
        · rfl
      | kept dst r =>
        obtain ⟨-, hdst, o, ho, hcontent⟩ := hadmits
        have hword : c.reg .rax = c.read (c.reg frameReg + X86.displacementWord o) := by
          have hholds := hc.2
          rwa [hcontent] at hholds
        have hsame : c.setReg dst (c.read (c.reg frameReg + X86.displacementWord o)) =
            if dst = .rax then c else c.setReg dst (c.reg .rax) := by
          rw [← hword]
          split
          · rename_i heq
            rw [heq, Cpu.setReg_reg]
          · rfl
        have hload : (kept dst r).reread = .instr (.load dst frameReg o) := by rw [reread, ho]
        have hkept : a.Allows (if dst = .rax then c else c.setReg dst (c.reg .rax)) := by
          split
          · exact hc
          · rename_i hne
            obtain ⟨hcomputes, -, hregs⟩ := Cpu.execute_quiet (i := .mov .w64 dst .rax)
              (by simpa [known_of_mem_scratchRegs hdst] using hdst) (show c.execute c.rip _ = some _ from rfl)
            exact ⟨hc.1, hc.2.congr hcomputes (hregs .rax (by decide) (by simpa using Ne.symm hne))⟩
        rw [List.map_cons, hload]
        change follow word none (ps.map reread)
          (c.setReg dst (c.read (c.reg frameReg + X86.displacementWord o))) = _
        rw [hsame]
        exact ih hleads none hkept
      | jmp l =>
        change follow word none (.jmp l :: ps.map reread) c = _
        rw [follow, follow]
        exact ih hleads (some l) (hc.fits hadmits.2)
      | jcc cond l =>
        change follow word none (.jcc cond l :: ps.map reread) c = _
        rw [follow, follow]
        refine ih hleads _ ?_
        have hnext : (next Λ a (.jcc cond l)).Allows c := by
          rw [next]
          split
          · exact allows_any
          · exact hc
        have htaken : (Λ l).Allows c := by
          obtain ⟨-, -, hfits⟩ | ⟨-, -, hlabel⟩ := hadmits
          · exact hc.fits hfits
          · exact hlabel ▸ ⟨by simp, trivial⟩
        by_cases hcond : cond.holds c.flags = true
        · rw [if_pos hcond]
          exact htaken
        · rw [if_neg hcond]
          exact hnext
      | call l => rfl
      | address dst l =>
        change follow word none (.address dst l :: ps.map reread) c = _
        rw [follow, follow]
        exact ih hleads none ⟨hc.1, trivial⟩
      | bind l =>
        change follow word none (.bind l :: ps.map reread) c = _
        rw [follow, follow]
        exact ih hleads none (hc.fits hadmits)
      | align n => rfl

end Piece

/-! ## The code of an instruction -/

namespace Spot.Opens

variable {images : Array LoadedImage} {L : List (Lodged images)} {m : Machine} {x : Spot images} {span : Span}
  {b : Block} (h : x.Opens span b) (hL : Lodged.Distinct L)
  (hrun : m.Executes L (Machine.ComesBack L)) (hx : x.lodged ∈ L)

include h hL hrun

/-- Within the code of an instruction, control is in front of a piece that takes room. -/
theorem settles {place : Nat} (hplace : x.place ≤ place) (hroom : place < x.lodged.session.byteOf span.stop)
    (hrip : m.cpu.rip = x.lodged.image.address place) :
    ∃ (z : Spot images) (q : Piece), m.At L z ∧ z.piece? = some q ∧ 0 < q.size z.place := by
  have hstop : x.lodged.session.byteOf span.stop ≤ x.lodged.session.size := by
    rw [h.byteOf_stop, ← List.take_length (l := b.body), ← h.place_add (Nat.le_refl _)]
    exact Spot.place_le _
  obtain ⟨w, hw⟩ := (hrun.sound hL).at_spot (x.size_le_place.trans hplace) (Nat.lt_of_lt_of_le hroom hstop) hrip
  exact hw.settle

include hx

theorem cached (hroom : x.lodged.session.byteOf span.start < x.lodged.session.byteOf span.stop)
    (hrip : m.cpu.rip = x.lodged.image.address (x.lodged.session.byteOf span.start))
    (hcached : span.event.cached ≠ Register.invalid) : ∃ d, Frame.registerOffset? span.event.cached = some d ∧
      m.cpu.reg .rax = m.readWord (m.cpu.reg frameReg + X86.displacementWord d) := by
  rw [h.byteOf_start] at hroom hrip
  obtain ⟨z, q, hz, hq, hsize⟩ := h.settles hL hrun (Nat.le_refl _) hroom hrip
  rw [h.byteOf_stop] at hroom
  have hnote := h.note_start hL hx hz.lodged hq hsize hroom (hz.rip.symm.trans hrip)
  have hevent : span.event.cached = b.cached := by rw [h.event]; rfl
  rw [hevent] at hcached ⊢
  obtain ⟨d, hd, -⟩ := Register.slot_of_ne_invalid hcached
  have hcontent := hz.knows.2
  rw [hnote, Content.of, hd] at hcontent
  exact ⟨d, hd, hcontent⟩

theorem kept {n : Nat} {dst : Reg} {r : Register} (hstart : span.start ≤ n) (hend : n < span.stop)
    (hpiece : x.lodged.session.pieces.toList[n]? = some (.kept dst r))
    (hroom : x.lodged.session.byteOf n < x.lodged.session.byteOf span.stop)
    (hrip : m.cpu.rip = x.lodged.image.address (x.lodged.session.byteOf n)) :
    ∃ d, Frame.registerOffset? r = some d ∧ m.cpu.effect (.load dst frameReg d) =
      some (if dst = .rax then m.cpu else m.cpu.setReg dst (m.cpu.reg .rax)) := by
  obtain ⟨j, hj, hplace, -⟩ := h.piece_at hstart hend hpiece
  rw [hplace] at hroom hrip
  obtain ⟨z, q, hz, hq, hsize⟩ := h.settles hL hrun (h.place_le (List.getElem?_eq_some_iff.1 hj).1) hroom hrip
  rw [h.byteOf_stop] at hroom
  obtain ⟨-, d, hd, hcontent⟩ := h.note_kept hL hx hz.lodged hq hsize hj hroom (hz.rip.symm.trans hrip)
  have hword := hz.knows.2
  rw [hcontent] at hword
  refine ⟨d, hd, ?_⟩
  change some (m.cpu.setReg dst (m.readWord (m.cpu.reg frameReg + X86.displacementWord d))) = _
  rw [show m.readWord _ = m.cpu.reg .rax from hword.symm]
  split
  · rename_i hdst
    rw [hdst, Cpu.setReg_reg]
  · rfl

/-- From a piece that takes room, the rest of the code goes the same way with its operands read again. -/
theorem rereads_of_lt (word : Label → UInt64) {n : Nat} {p : Piece} (hstart : span.start ≤ n)
    (hend : n < span.stop) (hp : x.lodged.session.pieces.toList[n]? = some p)
    (hsize : 0 < p.size (x.lodged.session.byteOf n))
    (hrip : m.cpu.rip = x.lodged.image.address (x.lodged.session.byteOf n)) :
    Piece.follow word none (((x.lodged.session.pieces.toList.take span.stop).drop n).map Piece.reread) m.cpu =
      (Piece.follow word none ((x.lodged.session.pieces.toList.take span.stop).drop n) m.cpu).reread := by
  obtain ⟨j, hj, hplace, hdrop⟩ := h.piece_at hstart hend hp
  obtain ⟨hlt, rfl⟩ := List.getElem?_eq_some_iff.1 hj
  have hroom := x.lodged.session.byteOf_mono (show n + 1 ≤ span.stop from hend)
  rw [Session.byteOf_succ hp] at hroom
  rw [hplace] at hroom hrip hsize
  obtain ⟨z, q, hz, hq, hsize'⟩ := h.settles hL hrun (h.place_le hlt) (by omega) hrip
  -- Control is at that piece, as it takes room.
  obtain rfl : x.goto (x.index + j) = z :=
    Spot.unique hL hx hz.lodged (h.piece j hlt) hq hsize hsize' (hrip.symm.trans hz.rip)
  obtain ⟨a, hleads, -, -⟩ := h.leads
  rw [hdrop]
  refine Piece.follow_reread (hleads.drop hlt .never) none ?_
  rw [← h.note j hlt]
  exact ⟨hz.phase_ne_never, hz.knows.2⟩

/-- The rest of the code goes the same way with its operands read again. -/
theorem rereads (word : Label → UInt64) {n : Nat} (hstart : span.start ≤ n) (hend : n < span.stop)
    (hroom : x.lodged.session.byteOf n < x.lodged.session.byteOf span.stop)
    (hrip : m.cpu.rip = x.lodged.image.address (x.lodged.session.byteOf n)) :
    Piece.follow word none (((x.lodged.session.pieces.toList.take span.stop).drop n).map Piece.reread) m.cpu =
      (Piece.follow word none ((x.lodged.session.pieces.toList.take span.stop).drop n) m.cpu).reread := by
  obtain ⟨k, hk⟩ : ∃ k, span.stop - n = k := ⟨_, rfl⟩
  induction k generalizing n with
  | zero => omega
  | succ k ih =>
    have hlength : n < x.lodged.session.pieces.toList.length := by
      by_contra hge
      rw [Session.byteOf, Session.byteOf, List.take_of_length_le (by omega), List.take_of_length_le (by omega)] at hroom
      exact Nat.lt_irrefl _ hroom
    obtain ⟨p, hp⟩ : ∃ p, x.lodged.session.pieces.toList[n]? = some p := ⟨_, List.getElem?_eq_getElem hlength⟩
    obtain hzero | hpos := Nat.eq_zero_or_pos (p.size (x.lodged.session.byteOf n))
    · -- A piece that takes no room does nothing, read again or not.
      have hsucc := Session.byteOf_succ hp
      rw [hzero, Nat.add_zero] at hsucc
      have hnext : n + 1 < span.stop := by
        by_contra hge
        rw [show span.stop = n + 1 by omega, hsucc] at hroom
        exact Nat.lt_irrefl _ hroom
      have hrest := ih (Nat.le_succ_of_le hstart) hnext (by rwa [hsucc]) (by rwa [hsucc]) (by omega)
      obtain ⟨hlt, hget⟩ := List.getElem?_eq_some_iff.1 ((List.getElem?_take_of_lt hend).trans hp)
      rw [List.drop_eq_getElem_cons hlt, hget, List.map_cons]
      cases p with
      | kept dst r =>
        obtain ⟨d, hd, heffect⟩ := h.kept hL hrun hx hstart hend hp hroom hrip
        have hdst : dst = .rax := by
          by_contra hne
          rw [Piece.size, Piece.encode, if_neg hne] at hzero
          exact Nat.ne_of_gt (X86.length_encode_bounds (.mov .w64 dst .rax)).1 hzero
        subst hdst
        have hread := Option.some.inj heffect
        rw [if_pos rfl] at hread
        rw [Piece.reread, hd]
        refine Eq.trans ?_ hrest
        exact congrArg (Piece.follow word none _) hread
      | bind l => exact hrest
      | align n => rfl
      | instr i => exact absurd hzero (Nat.ne_of_gt (X86.length_encode_bounds i).1)
      | address dst l => exact absurd hzero (Nat.ne_of_gt (X86.length_encode_bounds (.movImm64 dst 0)).1)
      | jmp l | jcc c l | call l => cases hzero
    · exact h.rereads_of_lt hL hrun hx word hstart hend hp hpos hrip

end Spot.Opens

/-! ## Loading and copying -/

theorem Machine.Holds.computes {m : Machine} {r : Register} {w : UInt64} (h : m.Holds r w) {d : Cpu}
    (hd : m.cpu.Computes d) (a : UInt64) : (m.withCpu (d.jump a)).Holds r w := by
  obtain ⟨o, ho, hw⟩ := h
  refine ⟨o, ho, (congrArg (Machine.readWord _) (congrArg (· + _) (hd.kept frameReg (by decide)))).trans ?_⟩
  exact (hd.read _).trans hw

theorem Machine.HasRegister.withCpu {m : Machine} {frame : UInt64} {r : Register} (h : m.HasRegister frame r)
    (c : Cpu) : (m.withCpu c).HasRegister frame r :=
  ⟨h.low, h.high, h.slot⟩

namespace Session.Stands

variable {s : Session} {c : CompiledUnit} {ins : Instruction} {span : Span} {jumps : JumpTable} {b : Block}
  {front back : List Piece} (hst : s.Stands c ins span jumps b front back)

include hst

theorem loadInt32_body (hop : ins.opcode = .loadInt32) : ∃ o, Frame.registerOffset? (ins.reg 0) = some o ∧
    b.body = [.instr (.movValue .rax (Value.int32 (ins.i32 1).toUInt32).word), .instr (.store frameReg o .rax)] := by
  refine hst.emitted.body (Q := fun body => ∃ o, Frame.registerOffset? (ins.reg 0) = some o ∧
    body = [.instr (.movValue .rax (Value.int32 (ins.i32 1).toUInt32).word), .instr (.store frameReg o .rax)]) ?_
  rw [hst.instruction, Emit.instruction, hop]
  simp [Emit.loadInt32]
  exact fun o ho => ⟨o, ho, rfl⟩

theorem move_body (hop : ins.opcode = .move) (hcached : span.event.cached = ins.reg 1) :
    ∃ o, Frame.registerOffset? (ins.reg 0) = some o ∧
      b.body = [.kept .rax (ins.reg 1), .instr (.store frameReg o .rax)] := by
  refine hst.emitted.body (Q := fun body => ∃ o, Frame.registerOffset? (ins.reg 0) = some o ∧
    body = [.kept .rax (ins.reg 1), .instr (.store frameReg o .rax)]) ?_
  rw [hst.instruction, Emit.instruction, hop, hst.cached, hcached]
  simp [Emit.move]
  exact fun o ho => ⟨o, ho, rfl⟩

end Session.Stands

namespace Machine.Reaches

variable {m : Machine} {s : Session} {image : Image} {c : CompiledUnit} {ins : Instruction} {span : Span}

/-- An instruction that has its result in the accumulator writes it to its destination, and to no other register. -/
theorem stores {p : Piece} {d : Cpu} {jumps : JumpTable} {b : Block} {front back : List Piece}
    (h : m.Reaches s image c ins.offset.toUInt32) (ht : s.Translates c ins span)
    (hst : s.Stands c ins span jumps b front back) {o : Int32} (ho : Frame.registerOffset? (ins.reg 0) = some o)
    (hbody : b.body = [p, .instr (.store frameReg o .rax)]) (hknown : p.known = true)
    (hfollow : ∀ rest, Piece.follow (s.word image) none (p :: rest) m.cpu = Piece.follow (s.word image) none rest d)
    (hd : m.cpu.Computes d) (hdst : m.HasRegister (m.cpu.reg frameReg) (ins.reg 0)) :
    m.Arrives fun m' => m'.Reaches s image c ins.next.toUInt32 ∧ m'.cpu.reg frameReg = m.cpu.reg frameReg ∧
      m'.Holds (ins.reg 0) (d.reg .rax) ∧
      ∀ r w, m.HasRegister (m.cpu.reg frameReg) r → r ≠ ins.reg 0 → m.Holds r w → m'.Holds r w := by
  have hrip : m.cpu.rip = image.address (Piece.endFrom 0 front) := by
    obtain ⟨place, hstarts, hrip⟩ := h.starts
    rw [hrip, ← hstarts.instruction span ht.recorded ht.key ht.offset, hst.start]
  have hknown' : ∀ q ∈ b.body, q.known = true := by
    rw [hbody]
    exact List.forall_mem_cons.2 ⟨hknown, by simp⟩
  have hfalls : Piece.follow (s.word image) none b.body m.cpu =
      .falls (d.write (d.reg frameReg + X86.displacementWord o) (d.reg .rax)) := by
    rw [hbody, hfollow]
    simp
  have hframe := hd.kept frameReg (by decide)
  rw [hframe] at hfalls
  obtain ⟨a, hpasses, hreaches⟩ := hst.falls h.running [] (List.nil_append _).symm hknown'
    (by rw [List.append_nil]; exact hrip) hfalls (.of_write hd (hdst.slot o ho) _)
  have hread (a' : UInt64) : (m.withCpu ((d.write (m.cpu.reg frameReg + X86.displacementWord o)
      (d.reg .rax)).jump a)).readWord a' =
        if m.cpu.reg frameReg + X86.displacementWord o = a' then d.reg .rax else m.readWord a' := by
    rw [readWord, withCpu_cpu, X86.Cpu.read_jump, X86.Cpu.read_write, hd.read]
    rfl
  have hholds {r : Register} {o' : Int32} {w : UInt64} (ho' : Frame.registerOffset? r = some o')
      (hw : (if m.cpu.reg frameReg + X86.displacementWord o = m.cpu.reg frameReg + X86.displacementWord o' then
        d.reg .rax else m.readWord (m.cpu.reg frameReg + X86.displacementWord o')) = w) :
      (m.withCpu ((d.write (m.cpu.reg frameReg + X86.displacementWord o) (d.reg .rax)).jump a)).Holds r w :=
    ⟨o', ho', (congrArg (readWord _) (congrArg (· + _) hframe)).trans ((hread _).trans hw)⟩
  refine ⟨_, hpasses, hreaches, hframe, hholds ho (if_pos rfl), fun r w hr hne hw => ?_⟩
  obtain ⟨o', ho', hw⟩ := hw
  refine hholds ho' ?_
  rw [if_neg (hr.slot_ne hdst hne ho' ho).symm]
  exact hw

end Machine.Reaches

/-! ## A program -/

/-- A code that is compiled alone, as a program of its own. -/
theorem CodeUnit.exists_lodged {source : Text} {u : CodeUnit} (hcode : Listing.parse source = .ok u.code)
    (hflat : u.code.codes = []) (hlinks : u.linksAlone = true) (hpool : u.pool.size = u.code.constants.size)
    (hsmall : u.code.data.size < 2 ^ 31) : ∃ (img : LoadedImage) (y : Lodged #[img]) (c : CompiledUnit),
      y.units = [u] ∧ y.image.base = 0x10000 ∧ y.session.PlacedIn y.image ∧ c ∈ y.session.programs.toList ∧
        c.unit = u := by
  obtain ⟨i, s, image, c, hcompile, hplaced, hloaded, hbase, hc, hunit⟩ := exists_session hlinks
  have hwalk : [u].map (fun u => some u.code) = u.code.walk := by
    obtain ⟨key, id, code, pool⟩ := u
    obtain ⟨name, data, constants, names, codes, handlers, params, registerCount, strict⟩ := code
    obtain rfl : codes = [] := hflat
    rfl
  exact ⟨.ofImage image, ⟨[u], ⟨source, u.code, hcode, hwalk⟩, by simpa using hpool, by simpa using hsmall, s,
    hcompile, image, hplaced.linked, hloaded.short, hloaded.positive, hplaced.room, hloaded.found⟩, c, rfl, hbase,
    hplaced, hc, hunit⟩

/-- A code whose finally block comes back to where two arguments are used like those of a finally block. -/
def resumingText : Text := Text.ofString
  "function main params=2 regs=8
    JUMP_SUBROUTINE r1, r2, block
    LOAD_INT32 r7, 7
    MV r6, r7
    RETURN_SUBROUTINE a0, a1
  block:
    RETURN_SUBROUTINE r1, r2
  end"

def resumingUnit : CodeUnit :=
  ⟨0, 0, (Listing.parse resumingText).toOption.getD (Code.ofName []), #[]⟩

/-- The registers that it names. -/
def resumingRegisters : List Register := [.ofNat 1, .ofNat 2, .ofNat 6, .ofNat 7, ⟨-2⟩, ⟨-3⟩]

/-- Whether an instruction names registers of a list only. -/
def Instruction.namesOnly (rs : List Register) (ins : Instruction) : Bool :=
  (List.range ins.opcode.format.length).all fun i =>
    match ins.opcode.format[i]? with
    | some .register => ins.reg i ∈ rs
    | some .packed => false
    | _ => true

theorem Instruction.mem_of_namesOnly {rs : List Register} {ins : Instruction} (h : ins.namesOnly rs = true)
    {r : Register} (hr : ins.Names r) : r ∈ rs := by
  have hchecks (i : Nat) (k : OperandKind) (hi : ins.opcode.format[i]? = some k) :=
    List.all_eq_true.1 h i (List.mem_range.2 (List.getElem?_eq_some_iff.1 hi).1)
  obtain ⟨i, hi, rfl⟩ | ⟨i, hi, -⟩ := hr
  · have hcheck := hchecks i _ hi
    rw [hi] at hcheck
    exact of_decide_eq_true hcheck
  · have hcheck := hchecks i _ hi
    rw [hi] at hcheck
    cases hcheck

/-- Whether the instructions of the unit are the five of its text. -/
def isResuming : List Instruction → Bool
  | [enter, load, move, forge, ret] =>
    decide ((enter.opcode = .jumpSubroutine ∧ enter.target? = some ret.offset.toUInt32 ∧ enter.reg 0 = .ofNat 1 ∧
        enter.reg 1 = .ofNat 2 ∧ enter.offset = 0 ∧ enter.next = load.offset) ∧
      (load.opcode = .loadInt32 ∧ load.reg 0 = .ofNat 7 ∧ load.i32 1 = 7 ∧ load.next = move.offset) ∧
      (move.opcode = .move ∧ move.offset = 7 ∧ move.reg 0 = .ofNat 6 ∧ move.reg 1 = .ofNat 7 ∧
        move.next = forge.offset) ∧
      (forge.opcode = .returnSubroutine ∧ forge.reg 0 = ⟨-2⟩ ∧ forge.reg 1 = ⟨-3⟩) ∧
      ret.opcode = .returnSubroutine ∧ ret.reg 0 = .ofNat 1 ∧ ret.reg 1 = .ofNat 2)
  | _ => false

/-- Whether the code of the unit starts behind the push of the frame, and where the copy is the accumulator is taken to
hold the register that is copied. -/
def holdsResuming (s : Session) : Bool :=
  s.spans.toList.all fun span =>
    decide (s.byteOf span.start < s.byteOf span.stop ∧
      (span.event.offset = 0 → span.event.opcode = .jumpSubroutine ∧
        s.byteOf span.start = s.placeOf (s.entryLabel resumingUnit) + 2) ∧
      (span.event.offset = 7 → span.event.cached = .ofNat 7 ∧ s.byteOf span.start % 2 = 0 ∧
        s.pieces.toList[span.start]? = some (.kept .rax (.ofNat 7))))

-- One evaluation of the parsed text serves all facts about the unit.
theorem resumingUnit_runs : (resumingUnit.piecesLinkAlone && (Listing.parse resumingText).isOk &&
    resumingUnit.code.codes.isEmpty && decide (resumingUnit.code.constants.size = 0) &&
    decide (resumingUnit.code.data.size < 2 ^ 31) && isResuming (Stream.instructions resumingUnit.code.data) &&
    (Stream.instructions resumingUnit.code.data).all (Instruction.namesOnly resumingRegisters) &&
    holdsResuming (Session.start.compile [some resumingUnit]).2) = true := by
  decide +kernel

namespace Machine

/-- A machine in which a function is about to be entered, with two words as its arguments. -/
def calling (img : LoadedImage) (x y : UInt64) : Machine :=
  let m : Machine := ⟨CodeMemory.ofSize codeBase 0, dataBase, nativeStackBase, nativeStackBase + 4096, #[], #[img], 0,
    Cpu.blank⟩
  ((m.setContextWord Context.nativeSP (nativeStackBase + 1024)).writeWord
    (poisedFrame + X86.displacementWord (-16)) x).writeWord (poisedFrame + X86.displacementWord (-24)) y

variable (img : LoadedImage) (x y : UInt64)

theorem calling_words : (calling img x y).contextWord Context.nativeSP = nativeStackBase + 1024 ∧
    (calling img x y).readWord (poisedFrame + X86.displacementWord (-16)) = x ∧
    (calling img x y).readWord (poisedFrame + X86.displacementWord (-24)) = y := by
  unfold calling
  refine ⟨?_, ?_, readWord_writeWord_self ..⟩
  · exact (readWord_writeWord_of_ne (show poisedFrame + X86.displacementWord (-24) ≠
        dataBase + X86.displacementWord Context.nativeSP by decide) _).trans
      ((readWord_writeWord_of_ne (show poisedFrame + X86.displacementWord (-16) ≠
        dataBase + X86.displacementWord Context.nativeSP by decide) _).trans (contextWord_setContextWord_self ..))
  · rw [readWord_writeWord_of_ne (by decide), readWord_writeWord_self]

theorem calling_orderly : (calling img x y).Orderly := by
  refine ⟨fun a ha b hb pc _ _ => ?_, ?_, ?_⟩
  · rw [show (calling img x y).images.toList = [img] from rfl, List.mem_singleton] at ha hb
    rw [ha, hb]
  · rw [show (calling img x y).context = dataBase from rfl,
      show (calling img x y).nativeBase = nativeStackBase from rfl]
    decide
  · rw [show (calling img x y).nativeEnd = nativeStackBase + 4096 from rfl]
    decide

/-- The registers that the unit names are in the frame of the call. -/
theorem calling_hasRegister {r : Register} (hr : r ∈ resumingRegisters) :
    (calling img x y).HasRegister poisedFrame r := by
  simp only [resumingRegisters, List.mem_cons, List.not_mem_nil, or_false] at hr
  rcases hr with rfl | rfl | rfl | rfl | rfl | rfl <;>
    refine ⟨by decide, by decide, fun d hd => ?_⟩ <;>
    · cases hd
      rw [OnRegisterStack, Beyond, show (calling img x y).context = dataBase from rfl,
        show (calling img x y).nativeBase = nativeStackBase from rfl]
      decide

end Machine

/-- The unit in an image of its own, with its five instructions. -/
structure Resuming {img : LoadedImage} (y : Lodged #[img]) (c : CompiledUnit)
    (enter load move forge ret : Instruction) : Prop where
  units : y.units = [resumingUnit]
  base : y.image.base = 0x10000
  placed : y.session.PlacedIn y.image
  program : c ∈ y.session.programs.toList
  unit : c.unit = resumingUnit
  spans : holdsResuming y.session = true
  instructions : Stream.instructions resumingUnit.code.data = [enter, load, move, forge, ret]
  listed : isResuming [enter, load, move, forge, ret] = true
  names : ∀ d, resumingUnit.Names d → ∃ r ∈ resumingRegisters, Frame.registerOffset? r = some d

theorem exists_resuming : ∃ (img : LoadedImage) (y : Lodged #[img]) (c : CompiledUnit)
    (enter load move forge ret : Instruction), Resuming y c enter load move forge ret := by
  have hrun := resumingUnit_runs
  simp only [Bool.and_eq_true, decide_eq_true_eq] at hrun
  obtain ⟨⟨⟨⟨⟨⟨⟨hlinks, hparse⟩, hflat⟩, hconstants⟩, hsmall⟩, hlist⟩, hnames⟩, hholds⟩ := hrun
  have hcode : Listing.parse resumingText = .ok resumingUnit.code := by
    unfold resumingUnit
    cases hparsed : Listing.parse resumingText with
    | ok code => rfl
    | error e =>
      rw [hparsed] at hparse
      cases hparse
  obtain ⟨img, y, c, hunits, hbase, hplaced, hc, hunit⟩ := CodeUnit.exists_lodged hcode
    (List.isEmpty_iff.1 hflat) (CodeUnit.linksAlone_of_pieces hlinks) hconstants.symm hsmall
  have hcompiled := y.compiled
  rw [hunits] at hcompiled
  rw [show Session.start.compile [some resumingUnit] = (.ok (), y.session) from hcompiled] at hholds
  unfold isResuming at hlist
  split at hlist
  · rename_i enter load move forge ret heq
    refine ⟨img, y, c, enter, load, move, forge, ret, hunits, hbase, hplaced, hc, hunit, hholds, heq, hlist,
      fun d ⟨ins, hins, r, hr, hd⟩ => ⟨r, ?_, hd⟩⟩
    exact Instruction.mem_of_namesOnly (List.all_eq_true.1 hnames ins hins) hr
  · cases hlist

namespace Resuming

variable {img : LoadedImage} {y : Lodged #[img]} {c : CompiledUnit} {enter load move forge ret : Instruction}
  (h : Resuming y c enter load move forge ret)

include h

theorem stands (ins : Instruction) (hins : ins ∈ [enter, load, move, forge, ret]) :
    ∃ span jumps b front back, y.session.Translates c ins span ∧ y.session.Stands c ins span jumps b front back := by
  obtain ⟨parts, hparts⟩ := h.placed.placed
  obtain ⟨span, ht⟩ := hparts.translates h.program (by rw [h.unit, h.instructions]; exact hins)
  obtain ⟨jumps, b, front, back, hst⟩ := hparts.stands ht
  exact ⟨span, jumps, b, front, back, ht, hst⟩

theorem exists_placed : ∃ u ∈ y.image.programs, u.unit = resumingUnit ∧
    u.entry = y.image.address (y.session.placeOf (y.session.entryLabel resumingUnit)) := by
  obtain ⟨cs, cs', hcs⟩ := List.append_of_mem h.program
  have hall := y.placed.linked.programs
  rw [hcs] at hall
  obtain ⟨us, u, us', hus, hpublishes, -⟩ := forall₂_around hall
  have hentry := y.address_eq hpublishes.entry
  rw [h.unit] at hentry
  exact ⟨u, Array.mem_toList_iff.1 (by rw [hus]; simp), hpublishes.unit.trans h.unit, hentry⟩

/-- The function is entered with two words as its arguments. -/
theorem entered (x w : UInt64) : ∃ m : Machine, m.Executes [y] (Machine.ComesBack [y]) ∧
    m.Reaches y.session y.image c enter.offset.toUInt32 ∧
    (∀ r ∈ resumingRegisters, m.HasRegister (m.cpu.reg frameReg) r) ∧ m.Holds ⟨-2⟩ x ∧ m.Holds ⟨-3⟩ w := by
  obtain ⟨span, jumps, b, front, back, ht, hst⟩ := h.stands enter (by simp)
  have hfacts := h.listed
  simp only [isResuming, decide_eq_true_eq] at hfacts
  obtain ⟨hroom, hfirst, -⟩ := of_decide_eq_true (List.all_eq_true.1 h.spans span ht.recorded)
  obtain ⟨-, hstart⟩ := hfirst (ht.offset.trans (by rw [hfacts.1.2.2.2.2.1]; rfl))
  obtain ⟨u, hu, hunit, hentry⟩ := h.exists_placed
  obtain ⟨n, hn⟩ : ∃ n, n = Machine.calling img x w := ⟨_, rfl⟩
  obtain ⟨hsp, hx, hw⟩ := hn ▸ Machine.calling_words img x w
  have hregister (r : Register) (hr : r ∈ resumingRegisters) : n.HasRegister Machine.poisedFrame r :=
    hn ▸ Machine.calling_hasRegister img x w hr
  have hregions : n.images = #[img] ∧ n.nativeBase = Machine.nativeStackBase ∧
      n.nativeEnd = Machine.nativeStackBase + 4096 := hn ▸ ⟨rfl, rfl, rfl⟩
  obtain ⟨d, hexecutes, hrip, hframe, hread⟩ := Machine.Executes.begins (P := Machine.ComesBack [y]) hregions.1
    (hn ▸ Machine.calling_orderly img x w) (List.mem_singleton_self y) hu (show n.HasSlots u.unit Machine.poisedFrame
      from fun o ho => by
        obtain ⟨r, hr, hd⟩ := h.names o (hunit ▸ ho)
        exact (hregister r hr).slot o hd)
    (by rw [hsp, hregions.2.1]; decide) (by rw [hsp, hregions.2.2]; decide)
  have hrip' : d.rip = y.image.address (y.session.byteOf span.start) := by
    rw [hrip, hentry, hstart, Image.address, Image.address, Nat.toUInt64_eq, Nat.toUInt64_eq, UInt64.ofNat_add,
      ← UInt64.add_assoc]
    rfl
  have hholds {r : Register} {o : Int32} {w' : UInt64} (hr : r ∈ resumingRegisters)
      (ho : Frame.registerOffset? r = some o)
      (hw' : n.readWord (Machine.poisedFrame + X86.displacementWord o) = w') :
      ((n.enter y.image Machine.poisedFrame u.entry).withCpu d).Holds r w' :=
    ⟨o, ho, (congrArg (fun a => d.read (a + _)) hframe).trans ((hread _ ((hregister r hr).slot o ho)).trans hw')⟩
  refine ⟨_, hexecutes, ?_, fun r hr => ?_, hholds (by decide) rfl hx, hholds (by decide) rfl hw⟩
  · obtain ⟨z, b, rfl, hopens⟩ := Spot.exists_opens y ht.recorded
    obtain ⟨z', -, hz, -⟩ := hopens.settles (Lodged.distinct_singleton _) hexecutes
      (Nat.le_of_eq hopens.byteOf_start.symm) hroom hrip'
    exact ⟨List.mem_singleton.1 hz.lodged ▸ hz.running, _, hst.here, hrip'⟩
  · rw [Machine.withCpu_cpu, hframe]
    exact ⟨(hregister r hr).low, (hregister r hr).high, (hregister r hr).slot⟩

/-- The finally block comes back to where it was entered from, and leaves the other registers alone. -/
theorem comes {m : Machine} (hexecutes : m.Executes [y] (Machine.ComesBack [y]))
    (hreaches : m.Reaches y.session y.image c enter.offset.toUInt32)
    (hregister : ∀ r ∈ resumingRegisters, m.HasRegister (m.cpu.reg frameReg) r) :
    ∃ d, (m.withCpu d).Executes [y] (Machine.ComesBack [y]) ∧
      (m.withCpu d).Reaches y.session y.image c load.offset.toUInt32 ∧ d.reg frameReg = m.cpu.reg frameReg ∧
      ∀ r ∈ resumingRegisters, r ≠ .ofNat 1 → r ≠ .ofNat 2 → ∀ w, m.Holds r w → (m.withCpu d).Holds r w := by
  have hL := Lodged.distinct_singleton y
  have hfacts := h.listed
  simp only [isResuming, decide_eq_true_eq] at hfacts
  obtain ⟨⟨henter, htarget, henter0, henter1, hoffset, hnext⟩, -, -, -, hret, hret0, hret1⟩ := hfacts
  obtain ⟨span, jumps, b, front, back, ht, hst⟩ := h.stands enter (by simp)
  obtain ⟨span', -, -, -, -, ht', -⟩ := h.stands load (by simp)
  obtain ⟨span'', -, -, -, -, ht'', -⟩ := h.stands ret (by simp)
  obtain ⟨-, hfirst, -⟩ := of_decide_eq_true (List.all_eq_true.1 h.spans span ht.recorded)
  obtain ⟨hopcode, -⟩ := hfirst (ht.offset.trans (by rw [hoffset]; rfl))
  obtain ⟨d, hexecutes', hreaches', hframe, ⟨v, place, -, hstarts, haddress, hjump, hflag⟩, hkeeps⟩ :=
    hexecutes.arrives (hreaches.enters ht henter htarget (by rw [h.base]; rfl) (by rw [henter0, henter1]; decide)
      (hregister _ (by rw [henter0]; decide)) (hregister _ (by rw [henter1]; decide)))
  rw [henter0] at hjump
  rw [henter1] at hflag
  obtain ⟨d', hexecutes'', hcomputes, houtside, hrax, next, hfetch⟩ := hexecutes'.arrives
    (hreaches'.turns ht'' hret (by rw [hret0]; exact hjump) (by rw [hret1]; exact hflag))
  have hback : Machine.ComesBack [y] d'.rip (d'.reg .rax) := by
    obtain ⟨x, hx⟩ := (hexecutes''.sound hL).at_jump houtside hfetch
    obtain ⟨hcontains, u, hlookup, hsame⟩ := hx.lookup
    obtain rfl : x.lodged = y := List.mem_singleton.1 hx.lodged
    have hpart : x.part.unit = resumingUnit := by
      have hmem := List.mem_map_of_mem (f := Part.unit) x.part_mem
      rw [x.lodged.parts_unit, h.units] at hmem
      exact List.mem_singleton.1 hmem
    refine ⟨x.lodged, List.mem_singleton_self _, hcontains, u, hlookup, span, ht.recorded, ?_, hopcode, ?_⟩
    · rw [ht.key, h.unit, hsame, hpart]
    · refine hrax.trans (haddress.trans (congrArg _ ?_))
      rw [← hstarts.instruction span' ht'.recorded ht'.key (by rw [ht'.offset, hnext]),
        hst.next.instruction span' ht'.recorded ht'.key (by rw [ht'.offset, hnext])]
  refine ⟨d'.jump (d'.reg .rax), hexecutes''.step houtside hfetch rfl fun _ => hback,
    ⟨hreaches'.running.works ((Machine.Works.of_computes hcomputes).jump _), place, hnext ▸ hstarts,
      hrax.trans haddress⟩, (hcomputes.kept frameReg (by decide)).trans hframe, fun r hr hne hne' w hw => ?_⟩
  exact (hkeeps r w (hregister r hr) (henter0 ▸ hne) (henter1 ▸ hne') hw).computes hcomputes _

end Resuming

/-- The copy is about to be made: the finally block has come back, and an integer has been loaded. The arguments
name the place of the copy once more. -/
structure Resumed {img : LoadedImage} (y : Lodged #[img]) (c : CompiledUnit) (move forge : Instruction)
    (span span' : Span) (m : Machine) : Prop where
  executes : m.Executes [y] (Machine.ComesBack [y])
  copies : y.session.Translates c move span
  leaves : y.session.Translates c forge span'
  reaches : m.Reaches y.session y.image c move.offset.toUInt32
  register : ∀ r ∈ resumingRegisters, m.HasRegister (m.cpu.reg frameReg) r
  integer : m.Holds (.ofNat 7) (Value.int32 7).word
  jump : m.Holds ⟨-2⟩ (Value.ofAddress (y.image.address (y.session.byteOf span.start))).word
  flag : m.Holds ⟨-3⟩ Emit.resumeWord

theorem exists_resumed : ∃ (img : LoadedImage) (y : Lodged #[img]) (c : CompiledUnit)
    (move forge : Instruction) (span span' : Span) (m : Machine), Resumed y c move forge span span' m ∧
      (move.opcode = .move ∧ move.reg 0 = .ofNat 6 ∧ move.reg 1 = .ofNat 7 ∧ move.next = forge.offset) ∧
      (forge.opcode = .returnSubroutine ∧ forge.reg 0 = ⟨-2⟩ ∧ forge.reg 1 = ⟨-3⟩) ∧
      y.image.base = 0x10000 ∧ span.event.cached = .ofNat 7 ∧ y.session.byteOf span.start % 2 = 0 ∧
      y.session.pieces.toList[span.start]? = some (.kept .rax (.ofNat 7)) ∧
      y.session.byteOf span.start < y.session.byteOf span.stop := by
  obtain ⟨img, y, c, enter, load, move, forge, ret, h⟩ := exists_resuming
  have hfacts := h.listed
  simp only [isResuming, decide_eq_true_eq] at hfacts
  obtain ⟨-, ⟨hload, hload0, hload1, hnext⟩, ⟨hmove, hoffset, hmove0, hmove1, hnext'⟩, hforge, -⟩ := hfacts
  obtain ⟨span, jumps, b, front, back, ht, hst⟩ := h.stands load (by simp)
  obtain ⟨span', -, -, -, -, ht', -⟩ := h.stands move (by simp)
  obtain ⟨span'', -, -, -, -, ht'', -⟩ := h.stands forge (by simp)
  obtain ⟨hroom, -, hcopy⟩ := of_decide_eq_true (List.all_eq_true.1 h.spans span' ht'.recorded)
  obtain ⟨hcached, heven, hpiece⟩ := hcopy (ht'.offset.trans (by rw [hoffset]; rfl))
  obtain ⟨m, hexecutes, hreaches, hregister, hjump, hflag⟩ := h.entered
    (Value.ofAddress (y.image.address (y.session.byteOf span'.start))).word Emit.resumeWord
  obtain ⟨d, hexecutes, hreaches, hframe, hkeeps⟩ := h.comes hexecutes hreaches hregister
  have hregister' (r : Register) (hr : r ∈ resumingRegisters) :
      (m.withCpu d).HasRegister ((m.withCpu d).cpu.reg frameReg) r := by
    rw [Machine.withCpu_cpu, hframe]
    exact (hregister r hr).withCpu d
  obtain ⟨o, ho, hbody⟩ := hst.loadInt32_body hload
  rw [hload1] at hbody
  obtain ⟨d', hexecutes', hreaches', hframe', hinteger, hkeeps'⟩ := hexecutes.arrives
    (hreaches.stores ht hst ho hbody rfl (fun rest => rfl) (X86.Cpu.computes_setReg _ (by decide) _)
      (hregister' _ (by rw [hload0]; decide)))
  have hholds {r : Register} {w : UInt64} (hr : r ∈ resumingRegisters) (h₁ : r ≠ .ofNat 1) (h₂ : r ≠ .ofNat 2)
      (h₇ : r ≠ load.reg 0) (hw : m.Holds r w) : (m.withCpu d').Holds r w :=
    hkeeps' r w (hregister' r hr) h₇ (hkeeps r hr h₁ h₂ w hw)
  refine ⟨img, y, c, move, forge, span', span'', m.withCpu d', ⟨hexecutes', ht', ht'', hnext ▸ hreaches', ?_, ?_,
    hholds (by decide) (by decide) (by decide) (by rw [hload0]; decide) hjump,
    hholds (by decide) (by decide) (by decide) (by rw [hload0]; decide) hflag⟩,
    ⟨hmove, hmove0, hmove1, hnext'⟩, hforge, h.base, hcached, heven, hpiece, hroom⟩
  · intro r hr
    rw [show (m.withCpu d').cpu.reg frameReg = _ from hframe']
    exact (hregister' r hr).withCpu d'
  · rw [← hload0]
    exact Eq.mp (congrArg _ (X86.Cpu.reg_setReg_self ..)) hinteger

/-! ## Soundness -/

/-- The accumulator cache is sound. Along an execution in which `RETURN_SUBROUTINE` only goes to where a
`JUMP_SUBROUTINE` comes back to, in front of the code of an instruction the accumulator holds the register that the
compiler takes it to hold; wherever an operand is taken from the accumulator, reading it from the frame does the
same; and from wherever control is in the code of an instruction, the rest of it goes the same way if all operands
are read from the frame. -/
theorem accumulator_cached {images : Array LoadedImage} {L : List (Lodged images)}
    (hL : Lodged.Distinct L) {m : Machine}
    (hrun : m.Executes L (Machine.ComesBack L)) {y : Lodged images} (hy : y ∈ L) {span : Span}
    (hspan : span ∈ y.session.spans.toList) :
    (y.session.byteOf span.start < y.session.byteOf span.stop →
      m.cpu.rip = y.image.address (y.session.byteOf span.start) → span.event.cached ≠ Register.invalid →
      ∃ d, Frame.registerOffset? span.event.cached = some d ∧
        m.cpu.reg .rax = m.readWord (m.cpu.reg frameReg + X86.displacementWord d)) ∧
    (∀ (n : Nat) (dst : Reg) (r : Register), span.start ≤ n → n < span.stop →
      y.session.pieces.toList[n]? = some (.kept dst r) → y.session.byteOf n < y.session.byteOf span.stop →
      m.cpu.rip = y.image.address (y.session.byteOf n) →
      ∃ d, Frame.registerOffset? r = some d ∧ m.cpu.effect (.load dst frameReg d) =
        some (if dst = .rax then m.cpu else m.cpu.setReg dst (m.cpu.reg .rax))) ∧
    ∀ (word : Label → UInt64) (n : Nat), span.start ≤ n → n < span.stop →
      y.session.byteOf n < y.session.byteOf span.stop → m.cpu.rip = y.image.address (y.session.byteOf n) →
      Piece.follow word none (((y.session.pieces.toList.take span.stop).drop n).map Piece.reread) m.cpu =
        (Piece.follow word none ((y.session.pieces.toList.take span.stop).drop n) m.cpu).reread := by
  obtain ⟨x, b, rfl, hopens⟩ := Spot.exists_opens y hspan
  exact ⟨hopens.cached hL hrun hy, fun n dst r => hopens.kept hL hrun hy,
    fun word n => hopens.rereads hL hrun hy word⟩

/-- At the copy the accumulator is taken for the register that is copied, and holds the same word. -/
theorem accumulator_cached_resumed : ∃ (images : Array LoadedImage) (L : List (Lodged images)) (m : Machine)
    (y : Lodged images) (span : Span), Lodged.Distinct L ∧
      m.Executes L (Machine.ComesBack L) ∧ y ∈ L ∧ span ∈ y.session.spans.toList ∧
      y.session.byteOf span.start < y.session.byteOf span.stop ∧
      m.cpu.rip = y.image.address (y.session.byteOf span.start) ∧ span.event.cached = .ofNat 7 ∧
      y.session.pieces.toList[span.start]? = some (.kept .rax (.ofNat 7)) ∧
      (∃ d, Frame.registerOffset? (.ofNat 7) = some d ∧
        m.cpu.reg .rax = m.readWord (m.cpu.reg frameReg + X86.displacementWord d)) ∧
      (∃ d, Frame.registerOffset? (.ofNat 7) = some d ∧ m.cpu.effect (.load .rax frameReg d) = some m.cpu) ∧
      ∀ word, Piece.follow word none (((y.session.pieces.toList.take span.stop).drop span.start).map Piece.reread)
        m.cpu = (Piece.follow word none ((y.session.pieces.toList.take span.stop).drop span.start) m.cpu).reread := by
  obtain ⟨img, y, c, move, forge, span, span', m, h, -, -, -, hcached, -, hpiece, hroom⟩ := exists_resumed
  have hL := Lodged.distinct_singleton y
  have hrip : m.cpu.rip = y.image.address (y.session.byteOf span.start) := by
    obtain ⟨place, hstarts, hrip⟩ := h.reaches.starts
    rw [hrip, hstarts.instruction span h.copies.recorded h.copies.key h.copies.offset]
  have hstop : span.start < span.stop := by
    by_contra hge
    exact absurd (y.session.byteOf_mono (Nat.not_lt.1 hge)) (Nat.not_le.2 hroom)
  obtain ⟨hcaches, hkept, hrereads⟩ :=
    accumulator_cached hL h.executes (List.mem_singleton_self y) h.copies.recorded
  rw [hcached] at hcaches
  exact ⟨#[img], [y], m, y, span, hL, h.executes, List.mem_singleton_self y, h.copies.recorded, hroom, hrip, hcached,
    hpiece, hcaches hroom hrip (by decide), hkept _ _ _ (Nat.le_refl _) hstop hpiece hroom hrip,
    fun word => hrereads word _ (Nat.le_refl _) hstop hroom hrip⟩

/-- If finally blocks are left for other addresses, the accumulator need not hold what it is taken for. -/
theorem accumulator_stale : ∃ (images : Array LoadedImage) (L : List (Lodged images)) (m : Machine)
    (y : Lodged images) (span : Span), Lodged.Distinct L ∧
      m.Executes L (fun _ _ => True) ∧ y ∈ L ∧ span ∈ y.session.spans.toList ∧
      y.session.byteOf span.start < y.session.byteOf span.stop ∧
      m.cpu.rip = y.image.address (y.session.byteOf span.start) ∧ span.event.cached ≠ Register.invalid ∧
      ∃ d, Frame.registerOffset? span.event.cached = some d ∧
        m.cpu.reg .rax ≠ m.readWord (m.cpu.reg frameReg + X86.displacementWord d) := by
  obtain ⟨img, y, c, move, forge, span, span', m, h, ⟨hmove, hmove0, hmove1, hnext⟩, ⟨hforge, hforge0, hforge1⟩,
    hbase, hcached, heven, -, hroom⟩ := exists_resumed
  have hexecutes : m.Executes [y] fun _ _ => True := h.executes.mono fun _ _ _ => trivial
  obtain ⟨jumps, b, front, back, hst, -⟩ := h.reaches.stands h.copies
  obtain ⟨o, ho, hbody⟩ := hst.move_body hmove (hcached.trans hmove1.symm)
  obtain ⟨c₁, hexecutes₁, hreaches₁, hframe₁, -, hkeeps₁⟩ := hexecutes.arrives
    (h.reaches.stores h.copies hst ho hbody rfl (fun rest => rfl) (.refl _)
      (by rw [hmove0]; exact h.register _ (by decide)))
  have hkeeps {r : Register} {w : UInt64} (hr : r ∈ resumingRegisters) (hne : r ≠ move.reg 0) (hw : m.Holds r w) :=
    hkeeps₁ r w (h.register r hr) hne hw
  have hjump := hkeeps (by decide) (by rw [hmove0]; decide) h.jump
  have hflag := hkeeps (by decide) (by rw [hmove0]; decide) h.flag
  rw [← hforge0] at hjump
  rw [← hforge1] at hflag
  rw [hnext] at hreaches₁
  obtain ⟨c₂, hexecutes₂, hcomputes, houtside, hrax, next, hfetch⟩ := hexecutes₁.arrives
    (hreaches₁.turns h.leaves hforge hjump hflag)
  have heven' : (y.image.address (y.session.byteOf span.start)).toNat % 2 = 0 := by
    rw [Image.address, UInt64.toNat_add, Nat.toUInt64_eq, UInt64.toNat_ofNat', hbase]
    change (65536 + _) % _ % 2 = 0
    omega
  rw [Value.toAddress_ofAddress heven'] at hrax
  obtain ⟨d, hd, hinteger⟩ := (hkeeps (by decide) (by rw [hmove0]; decide) h.integer).computes hcomputes (c₂.reg .rax)
  refine ⟨#[img], [y], _, y, span, Lodged.distinct_singleton y, hexecutes₂.step houtside hfetch rfl fun _ => trivial,
    List.mem_singleton_self y, h.copies.recorded, hroom, hrax, by rw [hcached]; decide, d, hcached ▸ hd,
    fun heq => ?_⟩
  have hword : y.image.address (y.session.byteOf span.start) = (Value.int32 7).word :=
    hrax.symm.trans (heq.trans hinteger)
  rw [hword] at heven'
  revert heven'
  decide

end RegisterJit
