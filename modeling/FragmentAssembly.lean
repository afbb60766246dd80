import FragmentAssembly.Quad
import FragmentAssembly.Binary32.Basic
import FragmentAssembly.Binary32.Rounding
import FragmentAssembly.Binary32.Arithmetic
import FragmentAssembly.Binary32.Elementary
import FragmentAssembly.Text.Numeral
import FragmentAssembly.Binary32.Decimal
import FragmentAssembly.Binary32.Text
import FragmentAssembly.Word
import FragmentAssembly.Binary16
import FragmentAssembly.Packing
import FragmentAssembly.Text.Token
import FragmentAssembly.Text.Cursor
import FragmentAssembly.Text.Location
import FragmentAssembly.Text.EditDistance
import FragmentAssembly.Text.Blank
import FragmentAssembly.Instruction.Opcode
import FragmentAssembly.Instruction.Register
import FragmentAssembly.Instruction.Condition
import FragmentAssembly.Instruction.TextureImage
import FragmentAssembly.Instruction.Basic
import FragmentAssembly.Instruction.Pattern
import FragmentAssembly.ParameterTable
import FragmentAssembly.Program.Basic
import FragmentAssembly.Program.Disassembly
import FragmentAssembly.Compile.Error
import FragmentAssembly.Compile.Scan
import FragmentAssembly.Span
import FragmentAssembly.Note
import FragmentAssembly.Compile.Draft
import FragmentAssembly.Compile.Operand
import FragmentAssembly.Compile.Statement
import FragmentAssembly.Compile
import FragmentAssembly.Execution.Sampler
import FragmentAssembly.Execution.Machine
import FragmentAssembly.Execution.Action
import FragmentAssembly.Execution.State
import FragmentAssembly.Execution.Run
import FragmentAssembly.Execution.Derivative
import FragmentAssembly.Execution.Interpreter
import FragmentAssembly.Context
import FragmentAssembly.Binary32.Argument
import FragmentAssembly.CommandLine.Arguments
import FragmentAssembly.CommandLine
import FragmentAssembly.Main
import FragmentAssembly.Proofs.Outcome
import FragmentAssembly.Proofs.ParameterTable
import FragmentAssembly.Proofs.Pattern
import FragmentAssembly.Proofs.Assembly.Basic
import FragmentAssembly.Proofs.Assembly.Soundness
import FragmentAssembly.Proofs.Program.Update
import FragmentAssembly.Proofs.Program.WellFormed
import FragmentAssembly.Proofs.Program.Alike
import FragmentAssembly.Proofs.Execution.Total
import FragmentAssembly.Proofs.Execution.Reference
import FragmentAssembly.Proofs.Execution.Refinement
import FragmentAssembly.Proofs.Execution.Levels
import FragmentAssembly.Proofs.Execution.Trace
import FragmentAssembly.Proofs.Execution.Outermost
import FragmentAssembly.Proofs.Execution.Twin
import FragmentAssembly.Proofs.Execution.Embedding
import FragmentAssembly.Proofs.Execution.Insertion
import FragmentAssembly.Proofs.Rounding
import FragmentAssembly.Proofs.Binary32.Value
import FragmentAssembly.Proofs.Binary16.Value
import FragmentAssembly.Proofs.Binary16.Rounding
import FragmentAssembly.Proofs.Binary16.Nearest
import FragmentAssembly.Proofs.Binary16.Widening
import FragmentAssembly.Proofs.Packing
import FragmentAssembly.Proofs.Binary32.Shortest
import FragmentAssembly.Proofs.Text.Numeral
import FragmentAssembly.Proofs.Binary32.Text
import FragmentAssembly.Proofs.Reading.Decision
import FragmentAssembly.Proofs.Text.Mark
import FragmentAssembly.Proofs.Reading.Scan
import FragmentAssembly.Proofs.Disassembly.Components
import FragmentAssembly.Proofs.Disassembly.Table
import FragmentAssembly.Proofs.Disassembly.Operand
import FragmentAssembly.Proofs.Disassembly.Source
import FragmentAssembly.Proofs.Disassembly.Mnemonic
import FragmentAssembly.Proofs.Disassembly.Instruction
import FragmentAssembly.Proofs.Disassembly.Statement
import FragmentAssembly.Proofs.Disassembly.Alike
import FragmentAssembly.Proofs.Disassembly.Literals
import FragmentAssembly.Proofs.Disassembly.Recompilation
import FragmentAssembly.Proofs.Coupling
import FragmentAssembly.Proofs.Execution.Isolation
import FragmentAssembly.Proofs.Execution.Fragments
import FragmentAssembly.Proofs.Text.Gap
import FragmentAssembly.Proofs.Text.NumeralGrammar
import FragmentAssembly.Proofs.Reading.Abreast
import FragmentAssembly.Proofs.Reading.Statement
import FragmentAssembly.Proofs.Reading.Fuel
import FragmentAssembly.Proofs.Reading.Lockstep
import FragmentAssembly.Proofs.Reading.Extension
import FragmentAssembly.Proofs.Reading.Layout
import FragmentAssembly.Proofs.Grammar.Item
import FragmentAssembly.Proofs.Grammar.Basic
import FragmentAssembly.Proofs.Grammar.Record
import FragmentAssembly.Proofs.Grammar.Spelling
import FragmentAssembly.Proofs.Grammar.Recognition
import FragmentAssembly.Proofs.Grammar.Constant
import FragmentAssembly.Proofs.Grammar.Destination
import FragmentAssembly.Proofs.Grammar.Source
import FragmentAssembly.Proofs.Grammar.Statement
import FragmentAssembly.Proofs.Grammar.Language
import FragmentAssembly.Proofs.Program.Usage
import FragmentAssembly.Proofs.Execution.SpanRun
import FragmentAssembly.Proofs.Execution.Footprint
import FragmentAssembly.Proofs.Execution.Events
import FragmentAssembly.Proofs.Execution.Neighbour
import FragmentAssembly.Proofs.Execution.Shadow
import FragmentAssembly.Proofs.Execution.Step
import FragmentAssembly.Proofs.Context.Operation
import FragmentAssembly.Proofs.Context.Isolation
import FragmentAssembly.Proofs.Program.Parameters
import FragmentAssembly.Proofs.Assembly.Join
import FragmentAssembly.Proofs.Context.History
import FragmentAssembly.Proofs.Context.Failure
import FragmentAssembly.Proofs.Reading.Course
import FragmentAssembly.Proofs.Reading.Growth
import FragmentAssembly.Proofs.Reading.Locality
import FragmentAssembly.Proofs.Reading.Composition
import FragmentAssembly.Proofs.Reading.Repetition
import FragmentAssembly.Proofs.Program.Concatenation
import FragmentAssembly.Proofs.Grammar.Place
import FragmentAssembly.Proofs.Reading.Cut
import FragmentAssembly.Proofs.Reading.Beginning
import FragmentAssembly.Proofs.Program.Beginning
import FragmentAssembly.Proofs.Grammar.Written
import FragmentAssembly.Proofs.Grammar.Denotation
import FragmentAssembly.Proofs.Program.Denotation
import FragmentAssembly.Proofs.Program.Equivalent
import FragmentAssembly.Proofs.Execution.Equivalence
import FragmentAssembly.Proofs.Execution.Write
import FragmentAssembly.Proofs.Binary32.Order
import FragmentAssembly.Proofs.Packing.Lane
import FragmentAssembly.Proofs.Packing.RoundTrip
import FragmentAssembly.Proofs.Text.Bytes
import FragmentAssembly.Proofs.Text.Lexer
import FragmentAssembly.Proofs.Text.Lexemes
import FragmentAssembly.Proofs.Text.Lossless
import FragmentAssembly.Proofs.Text.Location
import FragmentAssembly.Proofs.Reading.RegisterNumber
import FragmentAssembly.Proofs.Reading.ComponentLetters
import FragmentAssembly.Proofs.Grammar.Mnemonic
import FragmentAssembly.Proofs.Reading.Position
import FragmentAssembly.Proofs.Grammar.Form
import FragmentAssembly.Proofs.Grammar.Unambiguous
import FragmentAssembly.Proofs.Program.Fetch
import FragmentAssembly.Proofs.Inlining.Edit
import FragmentAssembly.Proofs.Inlining.Operand
import FragmentAssembly.Proofs.Inlining.Program
import FragmentAssembly.Proofs.CommandLine.Value
import FragmentAssembly.Proofs.CommandLine.Setting
import FragmentAssembly.Proofs.CommandLine.Arguments
import FragmentAssembly.Proofs.CommandLine.Report
import FragmentAssembly.Proofs.Text.Line
import FragmentAssembly.Proofs.Text.Report
import FragmentAssembly.Proofs.Text.Parting
import FragmentAssembly.Proofs.Grammar.Parting
import FragmentAssembly.Proofs.Program.Statements
import FragmentAssembly.Proofs.Program.Log
