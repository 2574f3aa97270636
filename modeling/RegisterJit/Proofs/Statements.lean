import RegisterJit.Proofs.Parsing

/-!
# What the lines of a function say

A line of a function is read without looking at the function read so far: it binds a label, gives an
instruction or a handler, or starts a nested function. What it says is then done to the function being
read. So the code of a function is a function of what its lines say.

`Argument` and `Statement` are the syntax of what a line can say, `Argument.Read` and `Body` relate texts to it.
`body_of_readBody` is the result: if a body was read, there is a list of statements that its lines say, and the
function is the one that saying these to the draft gives. Reading is thereby split into a part that looks at
texts and a part that does not. `Spelling` computes the words of statements; that reading a printed text gives
the same statements is then a question about lines alone.
-/

namespace RegisterJit.Listing

/-! ## Instructions -/

/-- An argument of an instruction, as it was written. -/
inductive Argument
  | register (r : Register)
  | packed (a b : Register) (n : UInt32)
  | number (i : Int)
  | constant (k : Constant)
  | name (t : Text)
  /-- A nested function, by its name. -/
  | code (t : Text)
  /-- A label, by its name. -/
  | jump (t : Text)

namespace Argument

/-- Whether an argument stands for an operand of some kind. -/
def Suits : Argument → OperandKind → Prop
  | .register _, .register | .packed .., .packed | .number _, .signed | .number _, .unsigned
  | .constant _, .constant | .name _, .name | .code _, .code | .jump _, .jump => True
  | _, _ => False

end Argument

def readArgument (kind : OperandKind) (args : List Text) :
    Except OperandError (Argument × List Text) := do
  let arg :: args := args | throw .missing
  match kind with
  | .register =>
    let r ← parseRegister arg
    return (.register r, args)
  | .jump => return (.jump arg, args)
  | .packed =>
    let second :: third :: args := args | throw .missing
    let a ← parseRegister arg
    let b ← parseRegister second
    let n ← (Numeral.unsigned 32 third).mapError .numeral
    return (.packed a b n.toUInt32, args)
  | .signed | .unsigned =>
    let n ← (Numeral.signed arg).mapError .numeral
    return (.number n, args)
  | .constant =>
    let k ← parseConstant arg
    return (.constant k, args)
  | .name =>
    let t ← parseName arg
    return (.name t, args)
  | .code => return (.code arg, args)

/-- Read the arguments for operands, numbering them from `index`. -/
def readArguments (op : Opcode) :
    (index : Nat) → List OperandKind → List Text → Except LineError (List Argument)
  | _, [], _ => .ok []
  | index, kind :: kinds, args =>
    match readArgument kind args with
    | .error e => .error (.operand op index e)
    | .ok (a, args) => (readArguments op (index + 1) kinds args).map (a :: ·)

def readInstruction (mnemonic : Text) (args : List Text) :
    Except LineError (Opcode × List Argument) :=
  match Opcode.ofName? mnemonic with
  | none => .error (.unknownOpcode mnemonic)
  | some op =>
    if args.length ≠ Draft.argumentCount op then
      .error (.operandCount op (Draft.argumentCount op) args.length)
    else (readArguments op 0 op.format args).map (op, ·)

namespace Draft

variable (d : Draft)

/-- Enter an argument of the instruction to come. -/
def take (index : Nat) : Argument → BuilderOperand × Draft
  | .register r => (.register r, d.noteRegister r)
  | .packed a b n => (.packed a b n, (d.noteRegister a).noteRegister b)
  | .number i => (.immediate i, d)
  | .constant k => (.immediate (d.builder.constant k).1, { d with builder := (d.builder.constant k).2 })
  | .name t => (.immediate (d.builder.name t).1, { d with builder := (d.builder.name t).2 })
  | .code t =>
    (.immediate 0, { d with references := d.references ++ [(d.builder.offset + 1 + index, t)] })
  | .jump t => (.label (d.label t).1, (d.label t).2)

def takeAll (d : Draft) : (index : Nat) → List Argument → List BuilderOperand × Draft
  | _, [] => ([], d)
  | index, a :: rest =>
    let (o, d) := d.take index a
    let (os, d) := d.takeAll (index + 1) rest
    (o :: os, d)

def perform (op : Opcode) (args : List Argument) : Draft :=
  let (os, d) := d.takeAll 0 args
  { d with builder := d.builder.emit op os }

theorem operand_eq (index : Nat) (kind : OperandKind) (args : List Text) :
    d.operand index kind args = (readArgument kind args).map
      fun (a, rest) => ((d.take index a).1, (d.take index a).2, rest) := by
  obtain _ | ⟨arg, args⟩ := args
  · rfl
  cases kind with
  | register =>
    change (d.register arg >>= _) = _
    rw [register]
    change (Except.map _ (parseRegister arg) >>= _) = Except.map _ (parseRegister arg >>= _)
    cases parseRegister arg <;> rfl
  | jump => rfl
  | packed =>
    obtain _ | ⟨second, _ | ⟨third, args⟩⟩ := args
    · rfl
    · rfl
    simp only [operand, readArgument, register]
    cases parseRegister arg with
    | error e => rfl
    | ok a =>
      cases parseRegister second with
      | error e => rfl
      | ok b =>
        cases Numeral.unsigned 32 third <;> rfl
  | signed | unsigned =>
    simp only [operand, readArgument]
    cases Numeral.signed arg <;> rfl
  | constant =>
    simp only [operand, readArgument]
    cases parseConstant arg <;> rfl
  | name =>
    simp only [operand, readArgument]
    cases parseName arg <;> rfl
  | code => rfl

theorem operands_eq (op : Opcode) (index : Nat) (kinds : List OperandKind) (args : List Text) :
    d.operands op index kinds args = (readArguments op index kinds args).map (d.takeAll index) := by
  induction kinds generalizing d index args with
  | nil => rfl
  | cons kind kinds ih =>
    rw [operands, readArguments, operand_eq]
    cases readArgument kind args with
    | error e => rfl
    | ok result =>
      obtain ⟨a, rest⟩ := result
      simp only [Except.map, ih]
      cases readArguments op (index + 1) kinds rest <;> rfl

theorem instruction_eq (mnemonic : Text) (args : List Text) :
    d.instruction mnemonic args =
      (readInstruction mnemonic args).map fun (op, as) => d.perform op as := by
  rw [instruction, readInstruction]
  cases Opcode.ofName? mnemonic with
  | none => rfl
  | some op =>
    dsimp only
    split
    · rfl
    · rw [operands_eq]
      cases readArguments op 0 op.format args <;> rfl

end Draft

/-- What holds of an argument that was read: registers and literals can be written, and the names of
nested functions are among the texts with the property `P`. -/
def Argument.Read (P : Text → Prop) : Argument → Prop
  | .register r => r.IsWritten
  | .packed a b _ => a.IsWritten ∧ b.IsWritten
  | .constant k => ∃ t, parseConstant t = .ok k
  | .code t => P t
  | _ => True

theorem read_of_readArgument {P : Text → Prop} {kind : OperandKind} {args rest : List Text}
    {a : Argument} (h : readArgument kind args = .ok (a, rest)) (hargs : ∀ t ∈ args, P t) :
    a.Suits kind ∧ a.Read P ∧ ∀ t ∈ rest, P t := by
  obtain _ | ⟨arg, args⟩ := args
  · cases h
  obtain ⟨harg, hargs⟩ := List.forall_mem_cons.1 hargs
  cases kind with
  | register =>
    simp only [readArgument] at h
    cases hr : parseRegister arg <;> rw [hr] at h <;> cases h
    exact ⟨trivial, parseRegister_written hr, hargs⟩
  | jump =>
    cases h
    exact ⟨trivial, trivial, hargs⟩
  | code =>
    cases h
    exact ⟨trivial, harg, hargs⟩
  | packed =>
    obtain _ | ⟨second, _ | ⟨third, args⟩⟩ := args
    · cases h
    · cases h
    simp only [readArgument] at h
    cases ha : parseRegister arg <;> rw [ha] at h
    · cases h
    cases hb : parseRegister second <;> rw [hb] at h
    · cases h
    cases hn : Numeral.unsigned 32 third <;> rw [hn] at h <;> cases h
    exact ⟨trivial, ⟨parseRegister_written ha, parseRegister_written hb⟩,
      fun t ht => hargs t (by simp [ht])⟩
  | signed | unsigned =>
    simp only [readArgument] at h
    cases hn : Numeral.signed arg <;> rw [hn] at h <;> cases h
    exact ⟨trivial, trivial, hargs⟩
  | constant =>
    simp only [readArgument] at h
    cases hk : parseConstant arg <;> rw [hk] at h <;> cases h
    exact ⟨trivial, ⟨arg, hk⟩, hargs⟩
  | name =>
    simp only [readArgument] at h
    cases ht : parseName arg <;> rw [ht] at h <;> cases h
    exact ⟨trivial, trivial, hargs⟩

theorem read_of_readArguments {P : Text → Prop} {op : Opcode} {index : Nat}
    {kinds : List OperandKind} {args : List Text} {as : List Argument}
    (h : readArguments op index kinds args = .ok as) (hargs : ∀ t ∈ args, P t) :
    List.Forall₂ (fun kind a => Argument.Suits a kind) kinds as ∧ ∀ a ∈ as, a.Read P := by
  induction kinds generalizing index args as with
  | nil =>
    cases h
    exact ⟨.nil, by simp⟩
  | cons kind kinds ih =>
    rw [readArguments] at h
    cases hone : readArgument kind args with
    | error e => rw [hone] at h; cases h
    | ok result =>
      obtain ⟨a, rest⟩ := result
      rw [hone] at h
      dsimp only at h
      cases hrest : readArguments op (index + 1) kinds rest with
      | error e => rw [hrest] at h; cases h
      | ok as' =>
        rw [hrest] at h
        cases h
        obtain ⟨hsuits, hread, hrestArgs⟩ := read_of_readArgument hone hargs
        obtain ⟨hall, hreads⟩ := ih hrest hrestArgs
        exact ⟨.cons hsuits hall, List.forall_mem_cons.2 ⟨hread, hreads⟩⟩

/-! ## Lines -/

/-- What a line of a function says. -/
inductive Statement
  | label (t : Text)
  | instruction (op : Opcode) (args : List Argument)
  | handler (h : HandlerLine)
  | nested (c : Code)

namespace Draft

def say (d : Draft) : Statement → Draft
  | .label t => d.bind t
  | .instruction op args => d.perform op args
  | .handler h => { d with handlers := d.handlers ++ [h] }
  | .nested c =>
    { d with builder := (d.builder.child c).2, children := (c.name, (d.builder.child c).1) :: d.children }

end Draft

/-- What the lines of a function say, from the first one of its body to its end. -/
inductive Body : List Text → List Statement → List Text → Prop
  | close {line : Text} {rest : List Text} (read : bodyLine line = .ok .close) :
      Body (line :: rest) [] rest
  | label {line : Text} {lines rest : List Text} {t : Text} {ss : List Statement}
      (read : bodyLine line = .ok (.label t)) (more : Body lines ss rest) :
      Body (line :: lines) (.label t :: ss) rest
  | instruction {line : Text} {lines rest : List Text} {word : Text} {args : List Text} {op : Opcode}
      {as : List Argument} {ss : List Statement}
      (read : bodyLine line = .ok (.instruction word args))
      (told : readInstruction word args = .ok (op, as)) (more : Body lines ss rest) :
      Body (line :: lines) (.instruction op as :: ss) rest
  | handler {line : Text} {lines rest : List Text} {isFinally : Bool} {args : List Text}
      {h : HandlerLine} {ss : List Statement}
      (read : bodyLine line = .ok (.handler isFinally args))
      (told : parseHandler isFinally args = .ok h) (more : Body lines ss rest) :
      Body (line :: lines) (.handler h :: ss) rest
  | nested {line : Text} {lines between rest : List Text} {d : Draft} {inner : List Statement}
      {c : Code} {ss : List Statement} (read : bodyLine line = .ok .nested)
      (opened : openFunction (Text.fields line) = .ok d) (body : Body lines inner between)
      (finished : (inner.foldl Draft.say d).finish = .ok c) (more : Body between ss rest) :
      Body (line :: lines) (.nested c :: ss) rest

theorem Body.length_lt {lines rest : List Text} {ss : List Statement} (h : Body lines ss rest) :
    ss.length + rest.length < lines.length := by
  induction h with
  | close => simp
  | label _ _ ih | instruction _ _ _ ih | handler _ _ _ ih =>
    simp only [List.length_cons]
    omega
  | nested _ _ _ _ _ ih ih' =>
    simp only [List.length_cons]
    omega

/-- A function that was read is finished after what its lines say. -/
theorem body_of_readBody {last fuel : Nat} {d : Draft} {lines rest : List Line} {c : Code}
    (h : readBody last fuel d lines = .ok (c, rest)) :
    ∃ ss, Body (lines.map Line.text) ss (rest.map Line.text) ∧
      (ss.foldl Draft.say d).finish = .ok c := by
  induction fuel generalizing d lines c rest with
  | zero => cases h
  | succ fuel ih =>
    obtain _ | ⟨line, lines⟩ := lines
    · cases h
    rw [List.map_cons]
    rw [readBody] at h
    split at h
    · cases h
    · rename_i hread
      cases hfinish : d.finish with
      | error e => rw [hfinish] at h; cases h
      | ok c' =>
        rw [hfinish] at h
        cases h
        exact ⟨[], .close hread, hfinish⟩
    · rename_i t hread
      obtain ⟨ss, hbody, hfinish⟩ := ih h
      exact ⟨_, .label hread hbody, hfinish⟩
    · rename_i hread
      split at h
      · cases h
      · rename_i inner hopen
        split at h
        · cases h
        · rename_i c' between hinner
          obtain ⟨inside, hinside, hfinished⟩ := ih hinner
          obtain ⟨ss, hbody, hfinish⟩ := ih h
          exact ⟨_, .nested hread hopen hinside hfinished hbody, hfinish⟩
    · rename_i isFinally args hread
      split at h
      · cases h
      · rename_i hd htold
        obtain ⟨ss, hbody, hfinish⟩ := ih h
        exact ⟨_, .handler hread htold hbody, hfinish⟩
    · rename_i word args hread
      rw [Draft.instruction_eq] at h
      cases htold : readInstruction word args with
      | error e => rw [htold] at h; cases h
      | ok told =>
        obtain ⟨op, as⟩ := told
        rw [htold] at h
        obtain ⟨ss, hbody, hfinish⟩ := ih h
        exact ⟨_, .instruction hread htold hbody, hfinish⟩

theorem readBody_of_body {last fuel : Nat} {d : Draft} {lines : List Line} {texts rest : List Text}
    {c : Code} {ss : List Statement} (h : Body texts ss rest)
    (hfinish : (ss.foldl Draft.say d).finish = .ok c) (hlines : lines.map Line.text = texts)
    (hfuel : lines.length ≤ fuel) :
    ∃ more : List Line, readBody last fuel d lines = .ok (c, more) ∧ more.map Line.text = rest := by
  induction h generalizing d fuel c lines with
  | close hread =>
    obtain ⟨line, lines, rfl, rfl, rfl⟩ := List.map_eq_cons_iff.1 hlines
    obtain ⟨fuel, rfl⟩ : ∃ n, fuel = n + 1 := ⟨fuel - 1, by simp at hfuel; omega⟩
    refine ⟨lines, ?_, rfl⟩
    rw [readBody, hread]
    dsimp only
    rw [show d.finish = .ok c from hfinish]
    rfl
  | label hread _ ih =>
    obtain ⟨line, lines, rfl, rfl, hrest⟩ := List.map_eq_cons_iff.1 hlines
    obtain ⟨fuel, rfl⟩ : ∃ n, fuel = n + 1 := ⟨fuel - 1, by simp at hfuel; omega⟩
    rw [readBody, hread]
    exact ih hfinish hrest (by simpa using hfuel)
  | instruction hread htold _ ih =>
    obtain ⟨line, lines, rfl, rfl, hrest⟩ := List.map_eq_cons_iff.1 hlines
    obtain ⟨fuel, rfl⟩ : ∃ n, fuel = n + 1 := ⟨fuel - 1, by simp at hfuel; omega⟩
    rw [readBody, hread]
    dsimp only
    rw [Draft.instruction_eq, htold]
    exact ih hfinish hrest (by simpa using hfuel)
  | handler hread htold _ ih =>
    obtain ⟨line, lines, rfl, rfl, hrest⟩ := List.map_eq_cons_iff.1 hlines
    obtain ⟨fuel, rfl⟩ : ∃ n, fuel = n + 1 := ⟨fuel - 1, by simp at hfuel; omega⟩
    rw [readBody, hread]
    dsimp only
    rw [htold]
    exact ih hfinish hrest (by simpa using hfuel)
  | nested hread hopen hinner hfinished hmore ih ih' =>
    obtain ⟨line, lines, rfl, rfl, hrest⟩ := List.map_eq_cons_iff.1 hlines
    obtain ⟨fuel, rfl⟩ : ∃ n, fuel = n + 1 := ⟨fuel - 1, by simp at hfuel; omega⟩
    have hlt := hinner.length_lt
    have hlength : lines.length ≤ fuel := by simpa using hfuel
    rw [← hrest, List.length_map] at hlt
    obtain ⟨between, hread', hbetween⟩ := ih hfinished hrest hlength
    rw [readBody, hread]
    dsimp only
    rw [hopen]
    dsimp only
    rw [hread']
    refine ih' hfinish hbetween ?_
    rw [← hbetween, List.length_map] at hlt
    omega

end RegisterJit.Listing
