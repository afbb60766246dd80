import FragmentAssembly.Compile.Scan
import FragmentAssembly.Note
import FragmentAssembly.Program.Basic

/-!
# Drafts

A draft is what has been gathered of a program while its text is being read.
-/

namespace FragmentAssembly

structure Draft where
  cursor : Cursor
  inputsRead : Nat := 0
  outputsWritten : Nat := 0
  textures : TextureUse := Vector.replicate _ none
  parameters : ParameterTable := {}
  notes : Array Note := #[]
deriving DecidableEq, Repr

/-- Reading of program text into a draft. -/
abbrev Compile := EStateM ParseError Draft

instance : MonadLift Scan Compile where
  monadLift m := fun d =>
    match m d.cursor with
    | .ok a cursor => .ok a { d with cursor }
    | .error e cursor => .error e { d with cursor }

namespace Compile

def note (n : Note) : Compile Unit :=
  modify fun d => { d with notes := d.notes.push n }

def markInput (i : InputIndex) : Compile Unit :=
  modify fun d => { d with inputsRead := d.inputsRead ||| (1 <<< i.val) }

def markOutput (i : OutputIndex) : Compile Unit :=
  modify fun d => { d with outputsWritten := d.outputsWritten ||| (1 <<< i.val) }

def addNamed (name : String) (kind : ParameterKind) (value : Vec4) : Compile Nat :=
  modifyGet fun d =>
    let (index, parameters) := d.parameters.addNamed name kind value
    (index, { d with parameters })

def addLiteral (value : Vec4) : Compile Nat :=
  modifyGet fun d =>
    let (index, parameters) := d.parameters.addLiteral value
    (index, { d with parameters })

end Compile

end FragmentAssembly
