import FragmentAssembly.Instruction.Condition
import FragmentAssembly.Instruction.Opcode
import FragmentAssembly.Instruction.TextureImage

/-!
# Instructions

An instruction is an opcode with its operands and the flags that its mnemonic carries.
-/

namespace FragmentAssembly

/-- The most instructions of a program, its `END` included. -/
def maxInstructions : Nat := 1024

/-- The precision that a mnemonic asks for.  Every instruction computes in full precision. -/
inductive Precision where
  | full
  | half
  | fixed
deriving DecidableEq, Repr, Inhabited

structure Instruction where
  opcode : Opcode
  sources : List Source := []
  destination : Option Destination := none
  /-- Guards the write, or decides whether `KIL` discards the fragment. -/
  condition : CondTest := {}
  precision : Precision := .full
  saturate : Bool := false
  updateCodes : Bool := false
  texture : Option TextureImage := none
  /-- The byte of the program text where the instruction starts. -/
  position : Nat
deriving DecidableEq, Repr

/-- The mnemonic with its suffixes.  Full precision is not written. -/
def Instruction.mnemonic (ins : Instruction) : String :=
  ins.opcode.mnemonic
    ++ (match ins.precision with
        | .full => ""
        | .half => "H"
        | .fixed => "X")
    ++ (if ins.updateCodes then "C" else "")
    ++ (if ins.saturate then "_SAT" else "")

end FragmentAssembly
