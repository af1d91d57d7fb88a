import EdeLang.Assembly.Assemble
import EdeLang.Assembly.Code
import EdeLang.Assembly.Labels
import EdeLang.Assembly.Listing
import EdeLang.Assembly.Wire
import EdeLang.Bytecode.Instruction
import EdeLang.Bytecode.Opcode
import EdeLang.Bytecode.Word
import EdeLang.Command.Arguments
import EdeLang.Command.Assembler
import EdeLang.Command.Compiler
import EdeLang.Command.Directory
import EdeLang.Command.Emulator
import EdeLang.Command.Report
import EdeLang.Command.Script
import EdeLang.Command.Tool
import EdeLang.Diagnostic
import EdeLang.Double.Basic
import EdeLang.Double.Decimal
import EdeLang.Double.Rounding
import EdeLang.Evaluation.Env
import EdeLang.Evaluation.Eval
import EdeLang.Evaluation.Value
import EdeLang.Json.Basic
import EdeLang.Json.Reader
import EdeLang.Json.Writer
import EdeLang.Lowering.Lower
import EdeLang.Machine.Basic
import EdeLang.Machine.Console
import EdeLang.Machine.Dump
import EdeLang.Machine.DumpConfig
import EdeLang.Machine.Heap
import EdeLang.Machine.Observer
import EdeLang.Machine.Step
import EdeLang.Main
import EdeLang.Program
import EdeLang.Proofs.Assembly.Failures
import EdeLang.Proofs.Assembly.Placement
import EdeLang.Proofs.Assembly.Resolution
import EdeLang.Proofs.Assembly.Wire
import EdeLang.Proofs.Bytecode.Codec
import EdeLang.Proofs.Bytecode.Decoding
import EdeLang.Proofs.Correctness
import EdeLang.Proofs.Diagnostics
import EdeLang.Proofs.Double.Nearest
import EdeLang.Proofs.Evaluation.Safety
import EdeLang.Proofs.Evaluation.Soundness
import EdeLang.Proofs.Evaluation.Work
import EdeLang.Proofs.Lowering.Assembled
import EdeLang.Proofs.Lowering.Discipline
import EdeLang.Proofs.Lowering.Expressions
import EdeLang.Proofs.Lowering.Heights
import EdeLang.Proofs.Lowering.Modules
import EdeLang.Proofs.Lowering.Represent
import EdeLang.Proofs.Lowering.Statements
import EdeLang.Proofs.Lowering.Validity
import EdeLang.Proofs.Machine.BlockMap
import EdeLang.Proofs.Machine.Calls
import EdeLang.Proofs.Machine.Effect
import EdeLang.Proofs.Machine.Failure
import EdeLang.Proofs.Machine.Invariant
import EdeLang.Proofs.Machine.Limits
import EdeLang.Proofs.Machine.Observation
import EdeLang.Proofs.Machine.Reach
import EdeLang.Proofs.Source.Boundaries
import EdeLang.Proofs.Source.Lexemes
import EdeLang.Proofs.Source.RoundTrip
import EdeLang.Proofs.Source.Spelling
import EdeLang.Proofs.Syntax.Comments
import EdeLang.Proofs.Syntax.Fields
import EdeLang.Proofs.Syntax.Forks
import EdeLang.Proofs.Syntax.Lookahead
import EdeLang.Proofs.Syntax.Nodes
import EdeLang.Proofs.Syntax.Phrases
import EdeLang.Proofs.Syntax.Places
import EdeLang.Proofs.Syntax.Precedence
import EdeLang.Proofs.Syntax.Reading
import EdeLang.Proofs.Syntax.Recognition
import EdeLang.Proofs.Syntax.Totality
import EdeLang.Proofs.Syntax.Weight
import EdeLang.Proofs.Typing.Cells
import EdeLang.Proofs.Typing.Checked
import EdeLang.Proofs.Typing.Equality
import EdeLang.Proofs.Typing.Inhabitants
import EdeLang.Proofs.Typing.Judgement
import EdeLang.Proofs.Typing.Lexical
import EdeLang.Proofs.Typing.Lookup
import EdeLang.Proofs.Typing.Paths
import EdeLang.Proofs.Typing.Places
import EdeLang.Proofs.Typing.Returns
import EdeLang.Proofs.Typing.Scopes
import EdeLang.Proofs.Typing.Scoping
import EdeLang.Proofs.Typing.Search
import EdeLang.Proofs.Typing.Tasks
import EdeLang.Proofs.Typing.Width
import EdeLang.Source.Lexeme
import EdeLang.Source.Position
import EdeLang.Source.Token
import EdeLang.Syntax.Basic
import EdeLang.Syntax.Cursor
import EdeLang.Syntax.Grammar
import EdeLang.Syntax.Printer
import EdeLang.Text.Alphabetic
import EdeLang.Text.Characters
import EdeLang.Text.Layout
import EdeLang.Text.Numeric
import EdeLang.Text.Printable
import EdeLang.Text.Style
import EdeLang.Typing.Check
import EdeLang.Typing.FlowGraph
import EdeLang.Typing.Scope
import EdeLang.Typing.Ty
import EdeLang.Yaml.Basic
import EdeLang.Yaml.Document
import EdeLang.Yaml.Place
import EdeLang.Yaml.Scalar
import EdeLang.Yaml.Token
