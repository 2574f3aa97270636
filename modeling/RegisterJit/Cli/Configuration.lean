import RegisterJit.Cli.Settings
import RegisterJit.Yaml.Document
import RegisterJit.Yaml.Scalar

/-!
# Configuration files

A configuration file is a YAML document: a mapping from the names of settings to their values. A
setting keeps its value where a null is given, and names that are no settings are ignored. What does
not fit is noted, so that all of it is reported at once. A mapping may merge others: their settings
count where the mapping itself gives none.
-/

namespace RegisterJit.Cli

open Yaml (Document Malformed Mark Node Scalar)

/-- Why a configuration is refused. -/
inductive ConfigError
  | malformed (cause : Malformed)
  /-- A value that does not mean anything. -/
  | meaningless (problem : Text)
  /-- Values that do not fit their settings, and names that are given twice. -/
  | misfits (notes : List Text)
  /-- A collection was given as a name where mappings are merged. -/
  | unnamed

/-- The wording of a configuration error. -/
def ConfigError.message : ConfigError → Text
  | .malformed cause => cause.message
  | .meaningless problem => Text.ofString "yaml: " ++ problem
  | .misfits notes =>
    Text.ofString "yaml: unmarshal errors:" ++ notes.flatMap fun m => Text.ofString "\n  " ++ m
  | .unnamed => []

/-- Settings being read from a document. -/
structure Configuring where
  settings : Settings
  notes : List Text
  /-- While mappings are merged, the names that are given already. -/
  claimed? : Option (List Scalar)
  /-- How many nodes were read. -/
  visits : Nat
  /-- How many of them were read behind a reference. -/
  distant : Nat
  /-- The places of the references that are being followed, the last one first. -/
  following : List Nat

/-- A step of reading settings. -/
abbrev Configure := EStateM ConfigError Configuring

namespace Configure

/-! ## Notes -/

/-- Note that something does not fit. -/
def note (t : Text) : Configure Unit := modify fun c => { c with notes := c.notes ++ [t] }

/-- Note something about a line. -/
def noteLine (line : Nat) (t : Text) : Configure Unit :=
  note (Text.ofString "line " ++ Text.ofNat line ++ Text.ofString ": " ++ t)

/-- How a node is shown in a note: its tag and the start of its text. -/
def shown (n : Node) (tag : Text) : Text :=
  if tag = Text.ofString "!!seq" ∨ tag = Text.ofString "!!map" then tag ++ n.text
  else
    let t := n.text
    let clipped := if t.length > 10 then t.take 7 ++ Text.ofString "..." else t
    tag ++ [0x20, 0x60] ++ clipped ++ [0x60]

/-- The pairs of entries with the same key, the earlier one first. -/
def repeated : List (Node × Node) → List (Node × Node)
  | [] => []
  | (k, _) :: rest =>
    ((rest.map Prod.fst).filter fun l => l.kind = k.kind && l.text = k.text).map ((k, ·)) ++
      repeated rest

/-- Note the keys that a mapping gives more than once. The result tells whether there are none. -/
def keysDiffer (entries : List (Node × Node)) : Configure Bool := do
  let pairs := repeated entries
  pairs.forM fun (k, l) =>
    noteLine l.line (Text.ofString "mapping key " ++ Text.quote l.text ++
      Text.ofString " already defined at line " ++ Text.ofNat k.line)
  return pairs.isEmpty

/-! ## Visits -/

/-- The number of visits up to which nearly all may be behind references. -/
def fewVisits : Nat := 400000

/-- The number of visits from which on hardly any may be behind references. -/
def manyVisits : Nat := 4000000

/-- The share of visits that may be behind references: of a hundred times the range between few and
many visits, how much. It falls from 99 to 10 percent. -/
def distantShare (visits : Nat) : Nat :=
  let range := manyVisits - fewVisits
  if visits ≤ fewVisits then 99 * range
  else if manyVisits ≤ visits then 10 * range
  else 99 * range - 89 * (visits - fewVisits)

/-- Whether too many visits are behind references. -/
def isExcessive (visits distant : Nat) : Bool :=
  100 < distant && 1000 < visits &&
    distantShare visits * visits < distant * (100 * (manyVisits - fewVisits))

/-- Count the visit of a node. -/
def visit : Configure Unit := do
  modify fun c => { c with
    visits := c.visits + 1
    distant := if c.following.isEmpty then c.distant else c.distant + 1 }
  let c ← get
  if isExcessive c.visits c.distant then
    throw (.meaningless "document contains excessive aliasing")

/-- Follow a reference at a place. It may not be followed inside of itself. -/
def following {α : Type} (place : Nat) (name : Text) (step : Configure α) : Configure α := do
  if (← get).following.contains place then
    throw (.meaningless
      (Text.ofString "anchor '" ++ name ++ Text.ofString "' value contains itself"))
  modify fun c => { c with following := place :: c.following }
  let a ← step
  modify fun c => { c with following := c.following.drop 1 }
  return a

/-! ## Values -/

/-- What a node is read as. -/
inductive Target
  | settings
  | size
  | switch
  | text
  /-- Anything at all. -/
  | any
  /-- A mapping of anything, with strings as names or anything. -/
  | mapping (hasTextNames : Bool)

namespace Target

/-- The name of what is wanted. -/
def wanted : Target → Text
  | .settings => "main.Config"
  | .size => "int"
  | .switch => "bool"
  | .text => "string"
  | .any | .mapping _ => []

/-- Whether a scalar that is not null is what is wanted. -/
def accepts : Target → Scalar → Bool
  | .size, s => s.toSize?.isSome
  | .switch, s => s.toSwitch?.isSome
  | .text, _ | .any, _ => true
  | .settings, _ | .mapping _, _ => false

end Target

/-- What was read from a node. -/
inductive Given
  | scalar (s : Scalar)
  | collection

/-- Note that a node with a tag is not what is wanted. -/
def noteMisfit (n : Node) (tag : Text) (target : Target) : Configure Unit :=
  noteLine n.line (Text.ofString "cannot unmarshal " ++ shown n tag ++ Text.ofString " into " ++
    target.wanted)

/-- A scalar as a string: its text, whatever it denotes. -/
def asText (text : Text) : Scalar → Scalar
  | .text t => .text t
  | _ => .text text

/-- Read a scalar. A null counts only where anything does. -/
def givenScalar (target : Target) (n : Node) (tag text : Text) : Configure (Option Given) := do
  match Scalar.ofTagged tag text, target with
  | .error problem, _ => throw (.meaningless problem)
  | .ok .null, .any => return some (.scalar .null)
  | .ok .null, _ => return none
  | .ok s, .text => return some (.scalar (asText text s))
  | .ok s, _ =>
    if target.accepts s then return some (.scalar s)
    noteMisfit n (if tag.isEmpty then s.tag else tag) target
    return none

/-- The node with an anchor. -/
def anchored (d : Document) (mark : Mark) (number : Nat) : Node :=
  d.anchored.getD number (.nothing mark)

/-- The node itself, or the one that a reference stands for. -/
def follow (d : Document) : Node → Node
  | .reference mark _ number => anchored d mark number
  | n => n

/-- The tag of a node, which the text of a plain scalar decides. -/
def tagOf : Node → Text
  | .scalar _ tag text => if tag.isEmpty then (Scalar.ofPlain true text).tag else tag
  | n => n.tag

/-- Whether all keys of a mapping are strings, or merge mappings. -/
def hasTextKeys (d : Document) (entries : List (Node × Node)) : Bool :=
  entries.all fun (k, _) =>
    tagOf (follow d k) = Text.ofString "!!str" || tagOf (follow d k) = Text.ofString "!!merge"

/-! ## Settings -/

/-- What the setting with a name is read as. -/
def settings : List (Text × Target) :=
  [("code_size", .size), ("stack_size", .size), ("native_stack_size", .size),
    ("disassemble", .switch), ("store_path", .text), ("verbose", .switch)]

/-- Change the setting with a name to a value, if there is one. -/
def assign (name : Text) (given : Option Given) : Configure Unit :=
  match given with
  | some (.scalar v) => modify fun c =>
    let s := c.settings
    let size := v.toSize?.getD 0
    let switch := v.toSwitch?.getD false
    { c with settings :=
        if name = Text.ofString "code_size" then { s with codeSize := size }
        else if name = Text.ofString "stack_size" then { s with stackSize := size }
        else if name = Text.ofString "native_stack_size" then { s with nativeStackSize := size }
        else if name = Text.ofString "disassemble" then { s with disassemble := switch }
        else if name = Text.ofString "store_path" then { s with storePath := v.text?.getD [] }
        else { s with verbose := switch } }
  | _ => return ()

/-! ## Names of entries -/

/-- Whether a key says that mappings are merged. -/
def isMerge (n : Node) : Bool :=
  match n with
  | .scalar _ tag text => text = Text.ofString "<<" && tag = Text.ofString "!!merge"
  | _ => false

/-- Claim a name while mappings are merged. The result tells whether it was free. -/
def claim (given : Given) : Configure Bool := do
  match (← get).claimed?, given with
  | none, _ => return true
  | some _, .collection => throw .unnamed
  | some names, .scalar s =>
    if names.any s.same then return false
    modify fun c => { c with claimed? := some (s :: names) }
    return true

/-- Do something while no mappings are merged. -/
def apart {α : Type} (step : Configure α) : Configure α := do
  let claimed? := (← get).claimed?
  modify fun c => { c with claimed? := none }
  let a ← step
  modify fun c => { c with claimed? := claimed? }
  return a

/-- Refuse something that cannot be merged. -/
def refuseMerge {α : Type} : Configure α :=
  throw (.meaningless "map merge requires map or sequence of maps as the value")

/-! ## Nodes -/

mutual
/-- Read a node. References are followed, none inside of itself, which bounds the depth. There is no
result if a null is no value, or if the node does not fit, which is noted. -/
def given (d : Document) : (fuel : Nat) → Target → Node → Configure (Option Given)
  | 0, _, _ => return none
  | fuel + 1, target, n => do
    visit
    match n, target with
    | .reference mark name number, _ =>
      following mark.index name (given d fuel target (anchored d mark number))
    | .scalar _ tag text, _ => givenScalar target n tag text
    | .sequence _ _ items, .any =>
      items.forM fun i => discard (given d fuel .any i)
      return some .collection
    | .sequence _ tag _, _ =>
      noteMisfit n tag target
      return none
    | .mapping _ tag entries, _ =>
      if !(← keysDiffer entries) then return none
      match target with
      | .any => readMapping d fuel (.mapping (hasTextKeys d entries)) entries
      | .settings | .mapping _ => readMapping d fuel target entries
      | _ =>
        noteMisfit n tag target
        return none

/-- Read the entries of a mapping, then what it merges. -/
def readMapping (d : Document) :
    (fuel : Nat) → Target → List (Node × Node) → Configure (Option Given)
  | 0, _, _ => return none
  | fuel + 1, target, entries => do
    let own := entries.filter fun (k, _) => !isMerge k
    let _ ← own.foldlM (readEntry d fuel target) []
    if let some (_, v) := (entries.filter fun (k, _) => isMerge k).getLast? then
      merge d fuel target entries v
    return some .collection

/-- Read an entry of a mapping; `done` are the names of the settings that were changed before. A
name that is claimed is passed over. -/
def readEntry (d : Document) : (fuel : Nat) → Target → (done : List Text) → Node × Node →
    Configure (List Text)
  | 0, _, done, _ => return done
  | fuel + 1, target, done, (k, v) => do
    let nameTarget := match target with
      | .mapping false => Target.any
      | _ => .text
    match ← apart (given d fuel nameTarget k) with
    | none => return done
    | some name =>
      if !(← claim name) then return done
      match target, name with
      | .settings, .scalar s =>
        let name := s.text?.getD []
        match settings.lookup name with
        | none => return done
        | some valueTarget =>
          if done.contains name then
            noteLine k.line (Text.ofString "field " ++ name ++
              Text.ofString " already set in type main.Config")
            return done
          assign name (← apart (given d fuel valueTarget v))
          return name :: done
      | _, .scalar _ =>
        discard <| apart (given d fuel .any v)
        return done
      | _, .collection => throw (.meaningless "invalid map key")

/-- Merge what a value says into the mapping with some entries. Their names are claimed first,
unless that mapping is merged itself. -/
def merge (d : Document) : (fuel : Nat) → Target → List (Node × Node) → Node → Configure Unit
  | 0, _, _, _ => return ()
  | fuel + 1, target, entries, v => do
    let isFirst := (← get).claimed?.isNone
    if isFirst then
      modify fun c => { c with claimed? := some [] }
      entries.forM fun (k, _) => do
        match ← given d fuel .any k with
        | some name => discard (claim name)
        | none => return ()
    let items := match v with
      | .sequence _ _ items => items
      | v => [v]
    items.forM fun i => do
      match follow d i with
      | .mapping .. => discard (given d fuel target i)
      | _ => refuseMerge
    if isFirst then modify fun c => { c with claimed? := none }
end

end Configure

/-- Change settings as a configuration file says. On the way to a node a reference is followed at
most once, and between two of them the way goes down in the document, so the square of the length
bounds the depth. -/
def Settings.configured (s : Settings) (t : Text) : Except ConfigError Settings :=
  match Document.read t with
  | .error cause => .error (.malformed cause)
  | .ok none => .ok s
  | .ok (some d) =>
    let step := do
      Configure.visit
      Configure.given d (4 * (t.length + 2) ^ 2) .settings d.root
    match step.run ⟨s, [], none, 0, 0, []⟩ with
    | .error e _ => .error e
    | .ok _ c => if c.notes.isEmpty then .ok c.settings else .error (.misfits c.notes)

end RegisterJit.Cli
