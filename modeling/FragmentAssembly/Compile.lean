import FragmentAssembly.Compile.Statement

/-!
# Compilation

Program text becomes a program, or an error that says why it does not.
-/

namespace FragmentAssembly

/-- A compilation with what was noted on the way. -/
structure Compilation where
  result : Except ParseError Program
  notes : Array Note

/-- The program of a finished draft. -/
def Draft.program (d : Draft) (source : String) (instructions : List Instruction) : Program where
  instructions := instructions
  inputsRead := d.inputsRead
  outputsWritten := d.outputsWritten
  textures := d.textures
  parameters := d.parameters
  localParameters := Vector.replicate _ (Quad.replicate .zero)
  source := source

def Draft.failure (d : Draft) (e : ParseError) : Compilation :=
  ⟨.error e, d.notes.push (.compilationFailed e)⟩

/-- A program must write some output, or nothing would come of it. -/
def Draft.success (d : Draft) (source : String) (instructions : List Instruction) : Compilation :=
  if d.outputsWritten = 0 then d.failure ⟨.noOutputsWritten, source.utf8ByteSize, []⟩
  else
    ⟨.ok (d.program source instructions),
      d.notes.push (.compiled instructions.length d.parameters.size)⟩

def compilation (source : String) : Compilation :=
  match Compile.program { cursor := Cursor.ofText source } with
  | .ok instructions d => d.success source instructions
  | .error e d => d.failure e

def compile (source : String) : Except ParseError Program :=
  (compilation source).result

end FragmentAssembly
