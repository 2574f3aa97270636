import RegisterJit.Compile.Instruction

/-!
# Compiling programs

A session compiles codes into one buffer that begins with two thunks. The entry thunk is reached
from the host with the context, the frame and the entry of a function; it loads the registers with a
fixed role, calls the function and leaves with its result. The stub thunk is called by compiled
code; it parks the arguments and the state of the caller in the context and leaves. All codes share
the labels of the buffer. What a failed compilation has emitted stays in the buffer.

Sessions are used through compiling and linking only. `Proofs.Compilation` shows that formed codes
compile, `Proofs.Sessions` what a successful compilation leaves for any codes, and `Proofs.Attempts`
that an attempt to link which finds no memory changes nothing that matters to a later one.
-/

namespace RegisterJit

open X86 (Reg Instr Label Assembler)

/-- One instruction as the compiler reached it, before emitting it. -/
structure TraceEvent where
  name : Text
  offset : UInt32
  opcode : Opcode
  /-- The register that the accumulator held. -/
  cached : Register

/-- The pieces that an instruction became. -/
structure Span where
  /-- The unit. -/
  key : Nat
  event : TraceEvent
  /-- The first of its pieces. -/
  start : Nat
  /-- The first piece after it. -/
  stop : Nat

/-- A boundary of a handler in compiled code. -/
structure HandlerLink where
  /-- The unit. -/
  key : Nat
  /-- The boundary as a word offset. -/
  offset : UInt32
  /-- The same boundary in the buffer. -/
  place : Nat

/-- A code whose compilation is complete. -/
structure CompiledUnit where
  unit : CodeUnit
  /-- The end of its code in the buffer. -/
  stop : Nat

/-- Codes compiled into one buffer. -/
structure Session where
  asm : Assembler
  /-- The symbolic code of the buffer. -/
  pieces : Array Piece
  /-- The instructions compiled so far, in order. -/
  spans : Array Span
  /-- The places of addresses to fill in when the code is placed. -/
  addresses : Array (Nat × Label)
  /-- The units whose compilation was begun, with the labels of their entries. -/
  entries : List (Nat × Label)
  handlerLinks : List HandlerLink
  /-- The units compiled completely, in order. -/
  programs : Array CompiledUnit
  trace : Array TraceEvent
  /-- Whether the code has been placed. -/
  linked : Bool

namespace Session

/-! ## Thunks -/

/-- Where the host enters compiled code. -/
def entryThunk : Label := 0

/-- What compiled code calls to reach a stub. -/
def stubThunk : Label := 1

/-- Where the outermost function returns to. -/
def returnSite : Label := 2

/-- Return to the host with the status in `rax`; `rdi` holds the context. -/
def leave : List Instr :=
  [.load .rsp .rdi Context.hostSP, .load .rbp .rdi Context.hostBP, .ret]

/-- From the host to the function in `rdx`. The frame is pushed so that the outermost function has
the same two words below it as every other. -/
def enterCode : List Instr :=
  [.mov .w64 contextReg .rdi, .mov .w64 frameReg .rsi, .movImm64 maskReg Value.numberMask,
    .push frameReg, .callReg .rdx]

/-- From the outermost function back to the host. -/
def returnCode : List Instr :=
  .pop .rcx :: .store contextReg Context.result .rax :: .mov .w64 .rdi contextReg ::
    .movImm32 .rax exitReturn :: leave

/-- The displacements of the argument words of the context. -/
def argumentOffsets : List Int32 := [8, 16, 24, 32, 40]

/-- Park the arguments of a stub in the context. -/
def parkArguments : List Instr :=
  (argumentOffsets.zip stubArgumentRegs).map fun (d, r) => .store .rdi d r

/-- Park the registers that the host does not keep in the context. -/
def parkRegisters : List Instr :=
  [.store .rdi Context.nativeSP .rsp, .store .rdi Context.savedRBX .rbx,
    .store .rdi Context.savedRBP .rbp, .store .rdi Context.savedR12 .r12,
    .store .rdi Context.savedR14 .r14, .store .rdi Context.savedR15 .r15]

/-- From compiled code to the host, for a stub. -/
def stubCode : List Instr :=
  .store .rdi Context.stubId .rax ::
    (parkArguments ++ (parkRegisters ++ (.movImm32 .rax exitStub :: leave)))

/-- A buffer with the thunks. -/
def thunks : Assembler :=
  let entered := enterCode.foldl Assembler.emit Assembler.empty
  let returned := (returnCode.foldl Assembler.emit entered).align 16
  let done := (stubCode.foldl Assembler.emit returned).align 16
  { done with labels := #[some 0, some returned.size, some entered.size] }

/-- The thunks as symbolic code. -/
def thunkPieces : List Piece :=
  .bind entryThunk :: enterCode.map .instr ++ .bind returnSite :: returnCode.map .instr ++
    .align 16 :: .bind stubThunk :: stubCode.map .instr ++ [.align 16]

/-- A session that has compiled nothing. -/
def start : Session := ⟨thunks, thunkPieces.toArray, #[], #[], [], [], #[], #[], false⟩

/-- The number of bytes emitted. -/
def size (s : Session) : Nat := s.asm.size

/-! ## Codes -/

/-- Steps of a session. What was emitted before a broken invariant stays. -/
abbrev Build := EStateM Invariant Session

namespace Build

theorem get_bind {α : Type} {s : Session} (f : Session → Build α) : (get >>= f) s = f s s := rfl

/-- Append a piece to the buffer. -/
def put (p : Piece) : Build Unit := fun s =>
  match s.asm.put p with
  | .ok asm =>
    .ok () { s with
      asm := asm
      pieces := s.pieces.push p
      addresses := s.addresses ++ (s.asm.addressSite? p).toArray }
  | .error f => .error (.label f) s

/-- Append pieces to the buffer. -/
def putAll : List Piece → Build Unit
  | [] => return ()
  | p :: rest => do put p; putAll rest

/-- Append what an emitter wrote. -/
def keep (e : Emitter) : Build Unit := do
  modify fun s => { s with asm := s.asm.reserve (e.labels - s.asm.labels.size) }
  putAll e.pieces.toList

/-- Run an emitter on the buffer; the result is the register that the accumulator then holds. -/
def emit (site : Site) (cached : Register) (body : Emit Unit) : Build Register := do
  match (body site).run ⟨#[], (← get).asm.labels.size, cached, Register.invalid⟩ with
  | .ok _ e => keep e; return e.upcoming
  | .error i e => keep e; throw i

theorem emit_of_ok {s : Session} {site : Site} {cached : Register} {body : Emit Unit} {u : Unit}
    {e : Emitter} (h : body site ⟨#[], s.asm.labels.size, cached, Register.invalid⟩ = .ok u e) :
    emit site cached body s = (do keep e; return e.upcoming : Build Register) s := by
  rw [emit, get_bind, EStateM.run, h]

theorem emit_of_error {s : Session} {site : Site} {cached : Register} {body : Emit Unit}
    {i : Invariant} {e : Emitter}
    (h : body site ⟨#[], s.asm.labels.size, cached, Register.invalid⟩ = .error i e) :
    emit site cached body s = (do keep e; throw i : Build Register) s := by
  rw [emit, get_bind, EStateM.run, h]

/-- The jump targets of a code. -/
def scan (c : Code) : Build JumpTable := do
  let (jumps, asm) := Scan.targets c (← get).asm
  modify fun s => { s with asm := asm }
  match jumps with
  | .ok table => return table
  | .error i => throw i

theorem scan_of_ok {s : Session} {c : Code} {table : JumpTable} {asm : Assembler}
    (h : Scan.targets c s.asm = (.ok table, asm)) :
    scan c s = .ok table { s with asm := asm } := by
  rw [scan, get_bind, h]
  rfl

theorem scan_of_error {s : Session} {c : Code} {i : Invariant} {asm : Assembler}
    (h : Scan.targets c s.asm = (.error i, asm)) : scan c s = .error i { s with asm := asm } := by
  rw [scan, get_bind, h]
  rfl

/-- At a jump target, bind its label and note a boundary of a handler. The register that the
accumulator holds is forgotten there. -/
def splitBlock (site : Site) (cached : Register) : Build Register := do
  match site.jumps.find? site.offset with
  | none => return cached
  | some target =>
    put (.bind target.label)
    if target.handled then
      modify fun s =>
        { s with handlerLinks := ⟨site.unit.key, site.offset, s.size⟩ :: s.handlerLinks }
    return Register.invalid

/-- Compile one instruction; the result is the register that the accumulator holds after it. -/
def instruction (site : Site) (cached : Register) (ins : Instruction) : Build Register := do
  let cached ← splitBlock site cached
  let event : TraceEvent := ⟨site.unit.code.name, site.offset, ins.opcode, cached⟩
  modify fun s => { s with trace := s.trace.push event }
  let start := (← get).pieces.size
  let upcoming ← emit site cached (Emit.instruction ins)
  modify fun s => { s with spans := s.spans.push ⟨site.unit.key, event, start, s.pieces.size⟩ }
  return upcoming

/-- Compile instructions in order. -/
def instructions (u : CodeUnit) (jumps : JumpTable) : Register → List Instruction → Build Unit
  | _, [] => return ()
  | cached, ins :: rest => do
    let cached ← instruction ⟨u, jumps, stubThunk, ins.offset.toUInt32⟩ cached ins
    instructions u jumps cached rest

/-- A function that runs off its end returns undefined. -/
def epilogue : Emit Unit := do
  Emit.immediate .rax Value.undefined.word.toUInt32
  Emit.returnAccumulator

/-- Begin a unit: its entry is aligned, and it pushes its frame, which is read back after calls and
when exceptions are delivered. -/
def openUnit (u : CodeUnit) : Build Unit := do
  let entry := (← get).asm.labels.size
  modify fun s => { s with asm := s.asm.reserve 1 }
  putAll [.align 16, .bind entry, .instr (.push frameReg)]
  modify fun s => { s with entries := (u.key, entry) :: s.entries }

/-- Compile one code without those nested in it. -/
def unit (u : CodeUnit) : Build Unit := do
  if (← get).entries.any (fun e => e.1 == u.key) then throw (.compiledTwice u.code.name)
  let jumps ← scan u.code
  openUnit u
  instructions u jumps Register.invalid (Stream.instructions u.code.data)
  let site : Site := ⟨u, jumps, stubThunk, u.code.data.size.toUInt32⟩
  let _ ← splitBlock site Register.invalid
  let _ ← emit site Register.invalid epilogue
  modify fun s => { s with programs := s.programs.push ⟨u, s.size⟩ }

/-- Compile codes in order up to the first that cannot be. -/
def units : List (Option CodeUnit) → Build Unit
  | [] => return ()
  | none :: _ => throw .absentCode
  | some u :: rest => do unit u; units rest

/-- Compile the codes of a program, parents first. -/
def program (codes : List (Option CodeUnit)) : Build Unit := do
  if (← get).linked then throw .alreadyLinked
  units codes

end Build

/-- Compile the codes of a program, parents first. -/
def compile (s : Session) (codes : List (Option CodeUnit)) : Except Invariant Unit × Session :=
  match (Build.program codes).run s with
  | .ok _ s => (.ok (), s)
  | .error i s => (.error i, s)

end Session

end RegisterJit
