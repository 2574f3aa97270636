import RegisterJit.Proofs.Statements

/-!
# What statements spell

The words, tables, labels and references that the statements of a function give, computed from the
statements alone. What stands for jumps and for nested functions is left open: a `Spelling` says which
words do. Reading leaves zeros there and notes the places.

`Tables` are the literals and names entered so far, and `enterAll` what statements enter. `wordsFrom` gives the
words of statements for a `Spelling`, so that the words of a draft, those of a finished code and those of a code
told again are all the same function for different spellings. `placesFrom` collects where jumps and nested
functions are referred to. `Drafts` shows that reading leaves the blank spelling, which finishing replaces, and
`Restating` that what is told again is spelled in the same way.
-/

namespace RegisterJit

/-! ## Tables -/

/-- The tables of a code. -/
structure Tables where
  constants : Array Constant
  names : Array Text

namespace Tables

def empty : Tables := ⟨#[], #[]⟩

/-- The index of a literal, which is entered if need be. -/
def constant (T : Tables) (k : Constant) : Nat × Tables :=
  match T.constants.findIdx? fun have_ => have_.same k with
  | some i => (i, T)
  | none => (T.constants.size, { T with constants := T.constants.push k })

/-- The index of a name, which is entered if need be. -/
def name (T : Tables) (t : Text) : Nat × Tables :=
  match T.names.idxOf? t with
  | some i => (i, T)
  | none => (T.names.size, { T with names := T.names.push t })

end Tables

namespace Builder

variable (b : Builder)

def tables : Tables := ⟨b.code.constants, b.code.names⟩

def setTables (T : Tables) : Builder :=
  { b with code := { b.code with constants := T.constants, names := T.names } }

theorem setTables_tables : b.setTables b.tables = b := by
  obtain ⟨⟨_, _, _, _, _, _, _, _, _⟩, _, _, _⟩ := b
  rfl

theorem constant_eq (k : Constant) :
    b.constant k = ((b.tables.constant k).1, b.setTables (b.tables.constant k).2) := by
  rw [constant, Tables.constant]
  simp only [tables]
  cases b.code.constants.findIdx? fun have_ => have_.same k with
  | some i => exact congrArg (i, ·) b.setTables_tables.symm
  | none => rfl

theorem name_eq (t : Text) : b.name t = ((b.tables.name t).1, b.setTables (b.tables.name t).2) := by
  rw [name, Tables.name]
  simp only [tables]
  cases b.code.names.idxOf? t with
  | some i => exact congrArg (i, ·) b.setTables_tables.symm
  | none => rfl

end Builder

namespace Listing

/-! ## Words of arguments -/

/-- Which words stand for jumps and for nested functions. -/
structure Spelling where
  /-- The word for a jump to a label, in the instruction that starts at `start`. -/
  jump : (start : Nat) → (label : Text) → Word
  code : Text → Word

/-- The words that reading leaves, to be filled in later. -/
def Spelling.blank : Spelling := ⟨fun _ _ => 0, fun _ => 0⟩

namespace Argument

/-- The word of an argument of the instruction that starts at `start`. -/
def word (w : Spelling) (start : Nat) (T : Tables) : Argument → Word
  | .register r => Word.ofRegister r
  | .packed a b n => Word.pack a b n
  | .number i => Word.ofUInt32 (UInt32.ofInt i)
  | .constant k => Word.ofUInt32 (UInt32.ofInt (T.constant k).1)
  | .name t => Word.ofUInt32 (UInt32.ofInt (T.name t).1)
  | .code t => w.code t
  | .jump t => w.jump start t

def enter (T : Tables) : Argument → Tables
  | .constant k => (T.constant k).2
  | .name t => (T.name t).2
  | _ => T

def label? : Argument → Option Text
  | .jump t => some t
  | _ => none

/-- The nested function that an argument refers to. -/
def code? : Argument → Option Text
  | .code t => some t
  | _ => none

end Argument

def argumentWords (w : Spelling) (start : Nat) : Tables → List Argument → List Word
  | _, [] => []
  | T, a :: as => a.word w start T :: argumentWords w start (a.enter T) as

def enterArguments (T : Tables) (as : List Argument) : Tables := as.foldl Argument.enter T

/-- The places of arguments for which `f` gives something. -/
def placesFrom {α : Type} (f : Argument → Option α) : (place : Nat) → List Argument → List (Nat × α)
  | _, [] => []
  | place, a :: as => ((f a).map (place, ·)).toList ++ placesFrom f (place + 1) as

theorem length_argumentWords (w : Spelling) (start : Nat) (T : Tables) (as : List Argument) :
    (argumentWords w start T as).length = as.length := by
  induction as generalizing T with
  | nil => rfl
  | cons a as ih => rw [argumentWords, List.length_cons, List.length_cons, ih]

/-! ## Statements -/

namespace Statement

def extent : Statement → Nat
  | .instruction op _ => op.length
  | _ => 0

/-- The words of a statement at word `start`. -/
def words (w : Spelling) (start : Nat) (T : Tables) : Statement → List Word
  | .instruction op as => Word.ofOpcode op :: argumentWords w start T as
  | _ => []

def enter (T : Tables) : Statement → Tables
  | .instruction _ as => enterArguments T as
  | _ => T

/-- The label that a statement binds at word `start`. -/
def labelAt (start : Nat) : Statement → List (Text × Nat)
  | .label t => [(t, start)]
  | _ => []

/-- The jumps of a statement at word `start`: the place of the displacement, the start of the
instruction, and the label. -/
def jumpsAt (start : Nat) : Statement → List (Nat × Nat × Text)
  | .instruction _ as => placesFrom (fun a => a.label?.map (start, ·)) (start + 1) as
  | _ => []

/-- The references of a statement at word `start` to nested functions. -/
def referencesAt (start : Nat) : Statement → List (Nat × Text)
  | .instruction _ as => placesFrom Argument.code? (start + 1) as
  | _ => []

def handler? : Statement → Option HandlerLine
  | .handler h => some h
  | _ => none

def nested? : Statement → Option Code
  | .nested c => some c
  | _ => none

/-- The arguments of an instruction suit its operands. -/
def Suits : Statement → Prop
  | .instruction op as => List.Forall₂ (fun kind a => Argument.Suits a kind) op.format as
  | _ => True

end Statement

def extentOf (ss : List Statement) : Nat := (ss.map Statement.extent).sum

/-- The words of statements, from word `start` on. -/
def wordsFrom (w : Spelling) : (start : Nat) → Tables → List Statement → List Word
  | _, _, [] => []
  | start, T, st :: ss => st.words w start T ++ wordsFrom w (start + st.extent) (st.enter T) ss

def enterAll (T : Tables) (ss : List Statement) : Tables := ss.foldl Statement.enter T

/-- What statements give at their places, from word `start` on. -/
def collectFrom {α : Type} (f : Nat → Statement → List α) : (start : Nat) → List Statement → List α
  | _, [] => []
  | start, st :: ss => f start st ++ collectFrom f (start + st.extent) ss

def labelsOf (ss : List Statement) : List (Text × Nat) := collectFrom Statement.labelAt 0 ss

def jumpsOf (ss : List Statement) : List (Nat × Nat × Text) := collectFrom Statement.jumpsAt 0 ss

def referencesOf (ss : List Statement) : List (Nat × Text) := collectFrom Statement.referencesAt 0 ss

def handlersOf (ss : List Statement) : List HandlerLine := ss.filterMap Statement.handler?

def nestedOf (ss : List Statement) : List Code := ss.filterMap Statement.nested?

def childrenOf (cs : List Code) : List (Text × Nat) := (cs.zipIdx.map fun (c, i) => (c.name, i)).reverse

theorem extentOf_append (ss ss' : List Statement) :
    extentOf (ss ++ ss') = extentOf ss + extentOf ss' := by simp [extentOf]

theorem wordsFrom_append (w : Spelling) (start : Nat) (T : Tables) (ss ss' : List Statement) :
    wordsFrom w start T (ss ++ ss') =
      wordsFrom w start T ss ++ wordsFrom w (start + extentOf ss) (enterAll T ss) ss' := by
  induction ss generalizing start T with
  | nil => simp [wordsFrom, extentOf, enterAll]
  | cons st ss ih =>
    simp only [List.cons_append, wordsFrom, ih, List.append_assoc, extentOf, List.map_cons,
      List.sum_cons, Nat.add_assoc, enterAll, List.foldl_cons]

theorem collectFrom_append {α : Type} (f : Nat → Statement → List α) (start : Nat)
    (ss ss' : List Statement) :
    collectFrom f start (ss ++ ss') =
      collectFrom f start ss ++ collectFrom f (start + extentOf ss) ss' := by
  induction ss generalizing start with
  | nil => simp [collectFrom, extentOf]
  | cons st ss ih =>
    simp only [List.cons_append, collectFrom, ih, List.append_assoc, extentOf, List.map_cons,
      List.sum_cons, Nat.add_assoc]

theorem enterAll_append (T : Tables) (ss ss' : List Statement) :
    enterAll T (ss ++ ss') = enterAll (enterAll T ss) ss' := List.foldl_append

theorem Statement.length_words (w : Spelling) (start : Nat) (T : Tables) {st : Statement}
    (h : st.Suits) : (st.words w start T).length = st.extent := by
  cases st with
  | instruction op as =>
    have hlen : op.format.length = as.length := List.Forall₂.length_eq h
    rw [Statement.words, List.length_cons, length_argumentWords, Statement.extent, Opcode.length,
      hlen, Nat.add_comm]
  | _ => rfl

theorem length_wordsFrom (w : Spelling) (start : Nat) (T : Tables) {ss : List Statement}
    (h : ∀ st ∈ ss, st.Suits) : (wordsFrom w start T ss).length = extentOf ss := by
  induction ss generalizing start T with
  | nil => rfl
  | cons st ss ih =>
    obtain ⟨hst, hss⟩ := List.forall_mem_cons.1 h
    rw [wordsFrom, List.length_append, ih _ _ hss, Statement.length_words w start T hst, extentOf,
      extentOf, List.map_cons, List.sum_cons]

end Listing

end RegisterJit
