import RegisterJit.Proofs.Leaving
import RegisterJit.Proofs.Sites

/-!
# How a run proceeds

A run of compiled code consists of what the processor does and of stubs that the host serves. `World.Runs`
puts the two together and keeps a list of the stubs that were served with the words that they were given.
`Running.follows` and `Running.asks` are the two ways in which symbolic code contributes to a run.

`Runs` is a relation between a world, a list of stubs with their arguments, and a later world. `Running.goes`
follows symbolic code to a label, `Running.stops` up to a piece that hands control to somebody else, and
`Running.asks` up to the call of a stub, for which compiled code has then left. So to know what an instruction
does, it is enough to follow its pieces and to know what its stub answers; `serveStub_eq` says what serving
amounts to. `Operands`, `Conditions` and the modules about operators and finally blocks are written with these
rules.
-/

namespace RegisterJit

open X86 (Reg Instr Label Cpu)

/-! ## Stubs that are asked for -/

namespace Stub

def arity : Stub → Nat
  | .loadObject | .raiseReference | .debugger => 0
  | .unaryPositive | .unaryNegative | .unaryNot | .unaryBitNot | .typeof | .increment | .decrement
  | .toNumber | .toPrimitiveString | .toBoolean | .loadArguments | .loadArray | .loadGlobal
  | .deleteGlobal | .typeofGlobal | .raiseNotCoercible | .raiseImmutable | .throw | .popEnv
  | .forInSetup | .forInEnumerate | .forInLeave => 1
  | .binary _ | .concat | .loadFunction | .loadRegExp | .storeGlobal _ | .stepGlobal | .loadName
  | .deleteName | .typeofName | .loadProp | .deleteProp _ | .loadElement | .deleteElement _
  | .tryCatchSetup | .instantiate .. | .withSetup => 2
  | .initSparseElement | .storeName _ | .stepName | .storeProp _ | .stepProp | .storeElement _
  | .stepElement | .buildEnv | .initializeHeapImmutable | .prepareDynamicCall => 3
  | .initVectorElement | .storeObject _ | .loadHeap | .storeHeap | .typeofHeap | .stepHeap => 4
  | .call | .construct | .eval => 5

end Stub

namespace Machine.PendingStub

def words (p : PendingStub) : List UInt64 := [p.a, p.b, p.c, p.d, p.e]

end Machine.PendingStub

namespace Run

def serves (ev : Evaluator) (s : Stub) (p : Machine.PendingStub) : Run (UInt64 × UInt64) :=
  stub ev s p.a p.b p.c p.d p.e

end Run

namespace Machine

variable {m m' : Machine} {s : Session} {image : Image}

/-- Compiled code has left for a stub with these argument words. -/
structure Asks (m : Machine) (s : Stub) (args : List UInt64) : Prop where
  rip : m.cpu.rip = hostAddress
  status : m.cpu.reg .rax = exitStub.toUInt64
  number : m.pendingStub.number = s.number.toUInt64
  args : m.pendingStub.words.take s.arity = args

theorem Works.jump {d : Cpu} (h : m.Works (m.withCpu d)) (a : UInt64) :
    m.Works (m.withCpu (d.jump a)) :=
  ⟨rfl, h.kept, h.memory⟩

section

variable (h : m.Running s image) {front ps back : List Piece}
  (hpieces : s.pieces.toList = front ++ (ps ++ back)) (hknown : ∀ p ∈ ps, p.known = true)
  (hrip : m.cpu.rip = image.address (Piece.endFrom 0 front)) {d : Cpu}

include h hpieces hknown hrip

theorem Running.falls (hfollow : Piece.follow (s.word image) none ps m.cpu = .falls d)
    (hworks : m.Works (m.withCpu d)) :
    ∃ a, a = image.address (Piece.endFrom 0 (front ++ ps)) ∧
      m.cpu.Passes m.images Cpu.Direct (d.jump a) ∧ (m.withCpu (d.jump a)).Running s image := by
  obtain ⟨c, hgoes, hexits⟩ := h.loaded.follows hpieces hknown hrip hfollow
  obtain rfl : c = _ := hexits
  exact ⟨_, rfl, hgoes, h.works (hworks.jump _)⟩

/-- A stretch of code is followed to a jump out of it. -/
theorem Running.goes {l : Label} (hfollow : Piece.follow (s.word image) none ps m.cpu = .goes l d)
    (hworks : m.Works (m.withCpu d)) :
    ∃ a, a = image.address (s.placeOf l) ∧
      m.cpu.Passes m.images Cpu.Direct (d.jump a) ∧ (m.withCpu (d.jump a)).Running s image := by
  obtain ⟨c, hgoes, hexits⟩ := h.loaded.follows hpieces hknown hrip hfollow
  obtain rfl : c = _ := hexits
  exact ⟨_, rfl, hgoes, h.works (hworks.jump _)⟩

/-- A stretch of code is followed up to a piece that hands control to somebody else. -/
theorem Running.stops {rest : List Piece}
    (hfollow : Piece.follow (s.word image) none ps m.cpu = .stops rest d)
    (hworks : m.Works (m.withCpu d)) :
    ∃ mid a, ps = mid ++ rest ∧ a = image.address (Piece.endFrom 0 (front ++ mid)) ∧
      m.cpu.Passes m.images Cpu.Direct (d.jump a) ∧ (m.withCpu (d.jump a)).Running s image := by
  obtain ⟨c, hgoes, mid, hmid, rfl⟩ := h.loaded.follows hpieces hknown hrip hfollow
  exact ⟨mid, _, hmid, rfl, hgoes, h.works (hworks.jump _)⟩

/-- A stretch of code is followed up to the call of a stub, and compiled code leaves for the host. -/
theorem Running.asks {rest : List Piece}
    (hfollow : Piece.follow (s.word image) none ps m.cpu = .stops (.call Session.stubThunk :: rest) d)
    (hworks : m.Works (m.withCpu d)) (hdi : d.reg .rdi = m.context) {stub : Stub}
    (hrax : d.reg .rax = stub.number.toUInt64) :
    ∃ mid c a, ps = mid ++ .call Session.stubThunk :: rest ∧ Cpu.Goes m.images m.cpu c ∧
      (m.withCpu (d.jump a)).Running s image ∧
      (m.withCpu (d.jump a)).Left (m.withCpu c)
        (image.address (Piece.endFrom 0 (front ++ mid ++ [.call Session.stubThunk]))) ∧
      (m.withCpu c).Asks stub
        ([d.reg .rsi, d.reg .rdx, d.reg .rcx, d.reg .r8, d.reg .r9].take stub.arity) := by
  obtain ⟨mid, a, hmid, ha, hgoes, hrunning⟩ := h.stops hpieces hknown hrip hfollow hworks
  have hpieces' : s.pieces.toList = (front ++ mid) ++ .call Session.stubThunk :: (rest ++ back) := by
    rw [hpieces, hmid]
    simp
  obtain ⟨c, hleaves, hleft⟩ := hrunning.leaves hpieces' ha hdi
  refine ⟨mid, c, a, hmid, hgoes.goes.trans hleaves, hrunning, hleft, ⟨hleft.rip, hleft.status, ?_, ?_⟩⟩
  · exact (congrArg PendingStub.number hleft.pending).trans hrax
  · exact congrArg (fun p : PendingStub => p.words.take stub.arity) hleft.pending

end

end Machine

/-! ## Runs -/

namespace World

/-- The world in which a call of a stub has been counted. -/
def counts (w : World) (s : Stub) : World := { w with stubCalls := w.stubCalls.push s }

def withMachine (w : World) (m : Machine) : World := { w with machine := m }

/-- A run of compiled code goes from one world to another, with some stubs served on the way. -/
inductive Runs (ev : Evaluator) : World → List (Stub × List UInt64) → World → Prop
  | here (w : World) : Runs ev w [] w
  | code {w w' : World} {calls : List (Stub × List UInt64)} {c : Cpu}
      (goes : Cpu.Goes w.machine.images w.machine.cpu c)
      (rest : Runs ev (w.withMachine (w.machine.withCpu c)) calls w') : Runs ev w calls w'
  | stub {w w₁ w' : World} {calls : List (Stub × List UInt64)} {s : Stub} {args : List UInt64}
      {r0 r1 : UInt64} (asks : w.machine.Asks s args)
      (answer : Run.serves ev s w.machine.pendingStub (w.counts s) = .ok (r0, r1) w₁)
      (rest : Runs ev (w₁.withMachine (w₁.machine.resume r0 r1)) calls w') :
      Runs ev w ((s, args) :: calls) w'

variable {ev : Evaluator} {w w' w'' : World}

theorem Runs.trans {calls calls' : List (Stub × List UInt64)} (h : Runs ev w calls w')
    (h' : Runs ev w' calls' w'') : Runs ev w (calls ++ calls') w'' := by
  induction h with
  | here => exact h'
  | code goes _ ih => exact .code goes (ih h')
  | stub asks answer _ ih => exact .stub asks answer (ih h')

end World

namespace Run

variable {ev : Evaluator} {w w₁ : World} {s : Stub} {args : List UInt64}

/-- Serving the stub that compiled code left for, as a function of the state. -/
theorem serveStub_eq (h : w.machine.Asks s args) :
    serveStub ev w = match attempt (serves ev s w.machine.pendingStub) (w.counts s) with
      | .ok (.ok (r0, r1)) w₁ => resume r0 r1 w₁
      | .ok (.error (.thrown v message)) w₁ => deliver v message w₁
      | .ok (.error (.failure message)) w₁ =>
        .error (.failure (Text.ofString "stub " ++ Text.ofString s.name ++ Text.ofString ": " ++
          message)) w₁
      | .ok (.error fault) w₁ => .error fault w₁
      | .error fault w₁ => .error fault w₁ := by
  have hstub : Stub.ofNat? w.machine.pendingStub.number.toNat = some s := by
    rw [h.number, UInt32.toNat_toUInt64]
    exact Stub.ofNat?_number s
  rw [serveStub, bind_ok (machine_run w)]
  dsimp only
  rw [hstub]
  change EStateM.bind (attempt (serves ev s w.machine.pendingStub)) _ (w.counts s) = _
  rw [EStateM.bind]
  cases attempt (serves ev s w.machine.pendingStub) (w.counts s) with
  | error f w₁ => rfl
  | ok r w₁ =>
    cases r with
    | ok r => rfl
    | error f => cases f <;> rfl

theorem serveStub_thrown (h : w.machine.Asks s args) {v : Value} {message : Text}
    (hs : serves ev s w.machine.pendingStub (w.counts s) = .error (.thrown v message) w₁) :
    serveStub ev w = deliver v message w₁ := by
  rw [serveStub_eq h, attempt, hs]
  rfl

end Run

end RegisterJit
