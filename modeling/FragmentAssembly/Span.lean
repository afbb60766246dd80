import FragmentAssembly.Instruction.Condition
import FragmentAssembly.Instruction.TextureImage

/-!
# Spans

A span is a run of neighbouring fragments.  Its steps say how each input changes from a fragment
to its neighbour along each window axis.
-/

namespace FragmentAssembly

inductive Axis where
  | x
  | y
deriving DecidableEq, Repr

structure Fragment where
  inputs : Vector Vec4 inputCount := Vector.replicate _ (Quad.replicate .zero)
  /-- The level of detail of each texture unit. -/
  lambda : Vector Binary32 textureUnitCount := Vector.replicate _ .zero
  /-- False once the fragment has been discarded. -/
  live : Bool := true
  color : Vec4 := Quad.replicate .zero
  depth : Binary32 := .zero
deriving DecidableEq, Repr

structure Span where
  fragments : List Fragment
  stepX : Vector Vec4 inputCount := Vector.replicate _ (Quad.replicate .zero)
  stepY : Vector Vec4 inputCount := Vector.replicate _ (Quad.replicate .zero)
deriving DecidableEq, Repr

namespace Span

def single (f : Fragment) : Span :=
  { fragments := [f] }

def size (s : Span) : Nat :=
  s.fragments.length

def liveCount (s : Span) : Nat :=
  s.fragments.countP Fragment.live

def step (s : Span) : Axis → Vector Vec4 inputCount
  | .x => s.stepX
  | .y => s.stepY

end Span

end FragmentAssembly
