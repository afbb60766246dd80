import FragmentAssembly.Binary32.Text
import FragmentAssembly.Program.Basic

/-!
# Disassembly

The text of a program.  Named parameters are written first, then the instructions, each with its
operands in the order in which they are read; a literal is written in braces where it is used.
-/

namespace FragmentAssembly

/-- A vector between braces. -/
def Vec4.literal (v : Vec4) : String :=
  Vec4.text .literal "\x7b" "\x7d" v

namespace Parameter

/-- The statement that introduces a named parameter; literals have none. -/
def statement? (p : Parameter) : Option String := do
  let keyword ←
    match p.kind with
    | .constant => some "DEFINE"
    | .declared => some "DECLARE"
    | .literal => none
  let name ← p.name
  return keyword ++ " " ++ name ++ " = " ++ p.value.literal ++ ";\n"

end Parameter

namespace ParameterTable

def operandText (t : ParameterTable) (index : Nat) : String :=
  match t.get? index with
  | some { name := some name, .. } => name
  | some { name := none, value, .. } => value.literal
  | none => "<invalid parameter " ++ toString index ++ ">"

end ParameterTable

namespace Program

def registerText (p : Program) : Readable → String
  | .temporary i => TemporaryIndex.text i
  | .input i => "f[" ++ inputNames.get i ++ "]"
  | .localParameter i => "p[" ++ toString i.val ++ "]"
  | .parameter i => p.parameters.operandText i

def sourceText (p : Program) (s : Source) : String :=
  (if s.absolute then (if s.negateAbsolute then "-|" else "|") else "")
    ++ (if s.negateBase then "-" else "")
    ++ p.registerText s.register
    ++ Swizzle.suffix s.swizzle
    ++ (if s.absolute then "|" else "")

/-- The condition in parentheses; a test that always passes is left out unless it is swizzled. -/
def guardText (t : CondTest) : String :=
  if t.isAlways && t.swizzle = Swizzle.identity then "" else " (" ++ t.text ++ ")"

def destinationText (ins : Instruction) : String :=
  match ins.destination with
  | some d => " " ++ d.text ++ guardText ins.condition
  | none => ""

/-- The source operands, separated from each other and from a destination by commas. -/
def sourcesText (p : Program) (ins : Instruction) : String :=
  match ins.sources with
  | [] => ""
  | sources =>
    (if ins.destination.isSome then ", " else " ")
      ++ String.intercalate ", " (sources.map p.sourceText)

def textureText (ins : Instruction) : String :=
  match ins.texture with
  | some image => ", TEX" ++ toString image.unit.val ++ ", " ++ image.target.name
  | none => ""

def instructionText (p : Program) (ins : Instruction) : String :=
  ins.mnemonic
    ++ destinationText ins
    ++ (if ins.opcode = .kil then " " ++ ins.condition.text else "")
    ++ p.sourcesText ins
    ++ textureText ins
    ++ ";"

def disassembly (p : Program) : String :=
  "!!FP1.0\n"
    ++ String.join (p.parameters.entries.filterMap Parameter.statement?)
    ++ String.join (p.body.map fun ins => p.instructionText ins ++ "\n")
    ++ "END\n"

end Program

end FragmentAssembly
