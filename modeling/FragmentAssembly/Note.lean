import FragmentAssembly.Compile.Error
import FragmentAssembly.Instruction.Basic
import FragmentAssembly.ParameterTable
import FragmentAssembly.Program.Disassembly
import FragmentAssembly.Span

/-!
# Notes

What compilation, execution and contexts report about their work.  A note is kept as what
happened; `Note.record` is how a log shows it.
-/

namespace FragmentAssembly

inductive Note where
  | scalarLiteral (index : Nat) (value : Binary32)
  | vectorLiteral (index : Nat) (value : Vec4)
  | parameterDefined (name : String) (kind : ParameterKind) (index : Nat) (value : Vec4)
  | instructionRead (opcode : Opcode) (position line : Nat)
  | compiled (instructions parameters : Nat)
  | compilationFailed (error : ParseError)
  | programBound (instructions inputsRead outputsWritten : Nat)
  | programRejected (error : ParseError)
  | fragmentKilled (pc fragment : Nat)
  /-- The instructions before `pc` are run again for a derivative. -/
  | rerun (pc depth : Nat) (axis : Axis)
  | derivativeTooDeep (pc : Nat)
  | spanDone (fragments killed : Nat)
deriving DecidableEq, Repr

inductive Level where
  | trace
  | debug
deriving DecidableEq, Repr

def Level.name : Level → String
  | trace => "TRACE"
  | debug => "DEBUG"

/-- The value of a field: a text, or a number that is left to the log to write. -/
inductive FieldValue where
  | text (s : String)
  | number (a : Binary32)
deriving DecidableEq, Repr

structure Record where
  level : Level
  message : String
  fields : List (String × FieldValue)
deriving DecidableEq, Repr

namespace Note

def count (n : Nat) : FieldValue :=
  .text (toString n)

def vector (v : Vec4) : FieldValue :=
  .text (Vec4.text .literal "[" "]" v)

def kindName : ParameterKind → String
  | .constant => "Constant"
  | .declared => "Declared"
  | .literal => "Anonymous"

def axisName : Axis → String
  | .x => "X"
  | .y => "Y"

def compilation : String × FieldValue :=
  ("stage", .text "compilation")

def execution : String × FieldValue :=
  ("stage", .text "execution")

def errorFields (e : ParseError) : List (String × FieldValue) :=
  [("position", count e.position), ("error", .text e.message)]

def record : Note → Record
  | scalarLiteral index value =>
    ⟨.trace, "add scalar literal", [compilation, ("index", count index), ("value", .number value)]⟩
  | vectorLiteral index value =>
    ⟨.trace, "add vector literal", [compilation, ("index", count index), ("value", vector value)]⟩
  | parameterDefined name kind index value =>
    ⟨.trace, "define parameter",
      [compilation, ("name", .text name), ("kind", .text (kindName kind)), ("index", count index),
        ("value", vector value)]⟩
  | instructionRead opcode position line =>
    ⟨.trace, "append instruction",
      [compilation, ("opcode", .text opcode.mnemonic), ("position", count position),
        ("line", count line)]⟩
  | compiled instructions parameters =>
    ⟨.debug, "compiled program",
      [compilation, ("instructions", count instructions), ("parameters", count parameters)]⟩
  | compilationFailed error => ⟨.debug, "compilation failed", compilation :: errorFields error⟩
  | programBound instructions inputsRead outputsWritten =>
    ⟨.debug, "program bound",
      [("instructions", count instructions), ("inputs_read", count inputsRead),
        ("outputs_written", count outputsWritten)]⟩
  | programRejected error => ⟨.debug, "program rejected", errorFields error⟩
  | fragmentKilled pc fragment =>
    ⟨.trace, "fragment killed", [execution, ("pc", count pc), ("fragment", count fragment)]⟩
  | rerun pc depth axis =>
    ⟨.trace, "re-execute for derivative",
      [execution, ("pc", count pc), ("depth", count depth), ("axis", .text (axisName axis))]⟩
  | derivativeTooDeep pc => ⟨.trace, "derivative nested too deep", [execution, ("pc", count pc)]⟩
  | spanDone fragments killed =>
    ⟨.trace, "span done",
      [execution, ("fragments", count fragments), ("killed", count killed)]⟩

end Note

end FragmentAssembly
