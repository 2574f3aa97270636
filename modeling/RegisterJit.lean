import RegisterJit.Bytecode.Builder
import RegisterJit.Bytecode.Code
import RegisterJit.Bytecode.Image
import RegisterJit.Bytecode.Lexeme
import RegisterJit.Bytecode.Listing
import RegisterJit.Bytecode.Opcode
import RegisterJit.Bytecode.Parser
import RegisterJit.Bytecode.Stream
import RegisterJit.Bytecode.Validate
import RegisterJit.Bytecode.Word
import RegisterJit.Cli.Archive
import RegisterJit.Cli.Command
import RegisterJit.Cli.Configuration
import RegisterJit.Cli.Disk
import RegisterJit.Cli.Flags
import RegisterJit.Cli.Place
import RegisterJit.Cli.Settings
import RegisterJit.Codec.LittleEndian
import RegisterJit.Codec.Natural
import RegisterJit.Codec.Schema
import RegisterJit.Compile.Arithmetic
import RegisterJit.Compile.Control
import RegisterJit.Compile.Disassembly
import RegisterJit.Compile.Emit
import RegisterJit.Compile.Frame
import RegisterJit.Compile.Instruction
import RegisterJit.Compile.Link
import RegisterJit.Compile.Memory
import RegisterJit.Compile.Piece
import RegisterJit.Compile.Scan
import RegisterJit.Compile.Session
import RegisterJit.Compile.Stub
import RegisterJit.Compile.Variable
import RegisterJit.Machine.Program
import RegisterJit.Machine.Run
import RegisterJit.Machine.State
import RegisterJit.Main
import RegisterJit.Number.Double
import RegisterJit.Number.Layout
import RegisterJit.Number.Literal
import RegisterJit.Number.Modular
import RegisterJit.Number.Numeral
import RegisterJit.Number.Shortest
import RegisterJit.Proofs.Acceptance
import RegisterJit.Proofs.Frames
import RegisterJit.Proofs.Attempts
import RegisterJit.Proofs.Blocks
import RegisterJit.Proofs.Building
import RegisterJit.Proofs.Compilation
import RegisterJit.Proofs.Completion
import RegisterJit.Proofs.Coverage
import RegisterJit.Proofs.Decoding
import RegisterJit.Proofs.Delivery
import RegisterJit.Proofs.Displacements
import RegisterJit.Proofs.Emission
import RegisterJit.Proofs.Emitters
import RegisterJit.Proofs.Finish
import RegisterJit.Proofs.Images
import RegisterJit.Proofs.Layout
import RegisterJit.Proofs.Lexemes
import RegisterJit.Proofs.Linking
import RegisterJit.Proofs.Naturals
import RegisterJit.Proofs.Note
import RegisterJit.Proofs.Parsing
import RegisterJit.Proofs.Program
import RegisterJit.Proofs.Publication
import RegisterJit.Proofs.Records
import RegisterJit.Proofs.References
import RegisterJit.Proofs.Relocation
import RegisterJit.Proofs.Scanning
import RegisterJit.Proofs.Sessions
import RegisterJit.Proofs.State
import RegisterJit.Proofs.Storage
import RegisterJit.Proofs.Words
import RegisterJit.Proofs.Writing
import RegisterJit.Report.Diagnostic
import RegisterJit.Report.Field
import RegisterJit.Report.Pattern
import RegisterJit.Report.Record
import RegisterJit.Script.Builtin
import RegisterJit.Script.Call
import RegisterJit.Script.Convert
import RegisterJit.Script.Elements
import RegisterJit.Script.Heap
import RegisterJit.Script.Operator
import RegisterJit.Script.Pool
import RegisterJit.Script.Property
import RegisterJit.Script.Scope
import RegisterJit.Script.Variable
import RegisterJit.Script.World
import RegisterJit.Store.Blake2b
import RegisterJit.Store.Key
import RegisterJit.Store.Programs
import RegisterJit.Store.Table
import RegisterJit.Text.Base64
import RegisterJit.Text.Blank
import RegisterJit.Text.Bytes
import RegisterJit.Text.Printable
import RegisterJit.Text.Quote
import RegisterJit.Text.Utf8
import RegisterJit.Value
import RegisterJit.X86.Assembler
import RegisterJit.X86.Cpu
import RegisterJit.X86.Decode
import RegisterJit.X86.Encode
import RegisterJit.X86.Instr
import RegisterJit.Yaml.Content
import RegisterJit.Yaml.Document
import RegisterJit.Yaml.Lexer
import RegisterJit.Yaml.Node
import RegisterJit.Yaml.Scalar
import RegisterJit.Yaml.Source
import RegisterJit.Yaml.Supply
import RegisterJit.Yaml.Timestamp
import RegisterJit.Yaml.Token
import RegisterJit.Proofs.Listings
import RegisterJit.Proofs.Reading
import RegisterJit.Proofs.Placement
import RegisterJit.Proofs.Ownership
import RegisterJit.Proofs.Addresses
import RegisterJit.Proofs.Chains
import RegisterJit.Proofs.Permanence
import RegisterJit.Proofs.Schemas
import RegisterJit.Proofs.Transcription
import RegisterJit.Proofs.Cursor
import RegisterJit.Proofs.Resolution
import RegisterJit.Proofs.Literals
import RegisterJit.Proofs.Branching
import RegisterJit.Proofs.Finally
import RegisterJit.Proofs.Boxing
import RegisterJit.Proofs.Decimals
import RegisterJit.Proofs.NumberLayouts
import RegisterJit.Proofs.Targets
import RegisterJit.Proofs.Integers
import RegisterJit.Proofs.Inline
import RegisterJit.Proofs.LooseEquality
import RegisterJit.Proofs.NumericStrings
import RegisterJit.Proofs.Relational
import RegisterJit.Proofs.Residues
import RegisterJit.Proofs.Loops
import RegisterJit.Proofs.Arrays
import RegisterJit.Proofs.Slots
import RegisterJit.Proofs.Unwinding
import RegisterJit.Proofs.Rendering
import RegisterJit.Proofs.Wrappers
import RegisterJit.Proofs.Shortcuts
import RegisterJit.Proofs.Scanners
import RegisterJit.Proofs.Recognition
import RegisterJit.Proofs.Capture
import RegisterJit.Proofs.Interning
import RegisterJit.Proofs.Provenance
import RegisterJit.Proofs.Possession
import RegisterJit.Proofs.Canonical
import RegisterJit.Proofs.Accumulator
