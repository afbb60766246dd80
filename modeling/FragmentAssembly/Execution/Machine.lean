import FragmentAssembly.Binary32.Arithmetic
import FragmentAssembly.Program.Basic

/-!
# Machines

The registers of one run.  `fetch` reads a source operand and `store` writes a result through the
mask and the condition of its destination.
-/

namespace FragmentAssembly

def Quad.zero : Vec4 :=
  Quad.replicate .zero

structure Machine where
  temporaries : Vector Vec4 temporaryCount := Vector.replicate _ Quad.zero
  inputs : Vector Vec4 inputCount := Vector.replicate _ Quad.zero
  outputs : Vector Vec4 outputCount := Vector.replicate _ Quad.zero
  codes : Quad CondCode := Quad.replicate .eq
deriving DecidableEq, Repr

namespace Source

/-- Applies the signs and bars of an operand. -/
def modify (s : Source) (v : Vec4) : Vec4 :=
  let v := if s.negateBase then v.map Binary32.neg else v
  let v := if s.absolute then v.map Binary32.abs else v
  if s.negateAbsolute then v.map Binary32.neg else v

/-- The derivative of a modified operand.  The absolute value turns it around where the value
below the bars is negative. -/
def modifyDerivative (s : Source) (value derivative : Vec4) : Vec4 :=
  let value := if s.negateBase then value.map Binary32.neg else value
  let derivative := if s.negateBase then derivative.map Binary32.neg else derivative
  let derivative :=
    if s.absolute then
      Quad.zipWith (fun v d => if v.lt .zero then d.neg else d) value derivative
    else derivative
  if s.negateAbsolute then derivative.map Binary32.neg else derivative

end Source

/-- The components of `new` where `mask` allows it, and those of `old` elsewhere. -/
def Quad.merge {α : Type} (mask : WriteMask) (new old : Quad α) : Quad α :=
  Quad.ofFn fun c => if mask.get c then new.get c else old.get c

namespace Instruction

/-- The components that an instruction computes. -/
def computed (ins : Instruction) : WriteMask :=
  match ins.opcode with
  | .rfl => ⟨true, true, true, false⟩
  | _ => Quad.replicate true

/-- The components that are computed and in the mask of the destination. -/
def declared (ins : Instruction) (d : Destination) : WriteMask :=
  Quad.zipWith and d.mask ins.computed

/-- The declared components that pass the condition. -/
def enabled (ins : Instruction) (d : Destination) (codes : Quad CondCode) : WriteMask :=
  Quad.zipWith and (ins.declared d) (ins.condition.passes codes)

end Instruction

namespace Machine

/-- Clears everything but the inputs. -/
def reset (m : Machine) : Machine :=
  { inputs := m.inputs }

/-- A reset machine with the inputs that the program reads. -/
def load (m : Machine) (p : Program) (inputs : Vector Vec4 inputCount) : Machine :=
  { inputs := Vector.ofFn fun i => if p.readsInput i then inputs.get i else m.inputs.get i }

def read (m : Machine) (p : Program) : Readable → Vec4
  | .temporary i => m.temporaries.get i
  | .input i => m.inputs.get i
  | .localParameter i => p.localParameters.get i
  | .parameter i => p.parameters.value i

def fetch (m : Machine) (p : Program) (s : Source) : Vec4 :=
  s.modify ((m.read p s.register).select s.swizzle)

/-- Whether a condition discards the fragment: one code that passes is enough. -/
def kills (m : Machine) (t : CondTest) : Bool :=
  (t.passes m.codes).any id

/-- The result as it is written: saturated if the instruction asks for it. -/
def result (ins : Instruction) (value : Vec4) : Vec4 :=
  if ins.saturate then value.map Binary32.saturate else value

/-- The declared codes become those of the result, whether or not the condition lets the result
through. -/
def updateCodes (m : Machine) (ins : Instruction) (d : Destination) (value : Vec4) : Machine :=
  if ins.updateCodes then
    { m with codes := Quad.merge (ins.declared d) (value.map CondCode.ofValue) m.codes }
  else m

/-- Replaces the allowed components of a register, and returns its new value. -/
def write (m : Machine) (mask : WriteMask) (value : Vec4) : Writable → Machine × Option Vec4
  | .temporary i =>
    let merged := Quad.merge mask value (m.temporaries.get i)
    ({ m with temporaries := m.temporaries.set i.val merged i.isLt }, some merged)
  | .output i =>
    let merged := Quad.merge mask value (m.outputs.get i)
    ({ m with outputs := m.outputs.set i.val merged i.isLt }, some merged)
  | .conditionOnly _ => (m, none)

/-- Stores the value of an instruction, and returns the register that was written with its new
value.  The condition is tested on the codes before the update. -/
def store (m : Machine) (ins : Instruction) (value : Vec4) : Machine × Option (Writable × Vec4) :=
  match ins.destination with
  | none => (m, none)
  | some d =>
    let value := result ins value
    let mask := ins.enabled d m.codes
    let m := m.updateCodes ins d value
    if mask.any id then
      let (m, written) := m.write mask value d.register
      (m, written.map fun v => (d.register, v))
    else (m, none)

end Machine

end FragmentAssembly
