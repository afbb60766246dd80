import FragmentAssembly.Instruction.Basic
import FragmentAssembly.ParameterTable

/-!
# Programs

A program is its instructions, the last of which is `END`, with the values of their parameters and
a summary of the registers and texture units that they use.
-/

namespace FragmentAssembly

/-- The target that each texture unit is sampled with. -/
abbrev TextureUse := Vector (Option TextureTarget) textureUnitCount

structure Program where
  instructions : List Instruction
  /-- Bit `n` is set if input `n` is read. -/
  inputsRead : Nat
  /-- Bit `n` is set if output `n` is written. -/
  outputsWritten : Nat
  textures : TextureUse
  parameters : ParameterTable
  localParameters : Vector Vec4 localParameterCount
  /-- The text that the program was read from. -/
  source : String
deriving DecidableEq, Repr

namespace Program

def readsInput (p : Program) (i : InputIndex) : Bool :=
  p.inputsRead.testBit i.val

def writesOutput (p : Program) (i : OutputIndex) : Bool :=
  p.outputsWritten.testBit i.val

/-- The instructions without the `END` behind them. -/
def body (p : Program) : List Instruction :=
  match p.instructions.getLast? with
  | some last => if last.opcode = .halt then p.instructions.dropLast else p.instructions
  | none => p.instructions

/-- The texture images in use, in the order of their units. -/
def textureImages (p : Program) : List TextureImage :=
  (List.finRange textureUnitCount).filterMap fun unit =>
    (p.textures.get unit).map fun target => ⟨unit, target⟩

end Program

end FragmentAssembly
