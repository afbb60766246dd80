import FragmentAssembly.Execution.Interpreter

/-!
# Reference semantics of derivatives

A run as a partial function, without any flag: it takes a machine and the lookups made so far to
those at its end.  A run that may have `levels` more runs nested in it has no result if one of its
derivatives would need more.
-/

namespace FragmentAssembly

namespace Reference

/-- Finds the derivative of a source operand along an axis, before instruction `pc`, on a machine
and after some lookups. -/
abbrev Deriver := Nat → Source → Axis → Machine → Array Request → Option (Vec4 × Array Request)

variable (job : Job)

/-! ## Instructions -/

def vector (m : Machine) (ins : Instruction) (n : Nat) : Option Vec4 :=
  ins.sources[n]?.map (m.fetch job.program)

/-- What a texture instruction asks the sampler. -/
def request (m : Machine) (requests : Array Request) (ins : Instruction) (image : TextureImage)
    (mode : LookupMode) : Option Request := do
  let coordinates ← vector job m ins 0
  let f ← job.span.fragments[job.fragment]?
  let lambda := f.lambda.get image.unit
  match mode with
  | .plain => some ⟨image.unit, image.target, coordinates, lambda⟩
  | .biased => some ⟨image.unit, image.target, coordinates, lambda.add coordinates.w⟩
  | .projective => some ⟨image.unit, image.target, Job.project coordinates, lambda⟩
  | .derivatives =>
    let ddx ← vector job m ins 1
    let ddy ← vector job m ins 2
    let (width, height) := job.sampler.imageSize requests image.unit
    some ⟨image.unit, image.target, coordinates, levelOfDetail ddx ddy width height⟩

/-- The value of an instruction, and the lookups after it. -/
def compute (derive : Deriver) (pc : Nat) (ins : Instruction) (m : Machine)
    (requests : Array Request) : Computation → Option (Vec4 × Array Request)
  | .constant value => some (value, requests)
  | .vector1 f => do
    let a ← vector job m ins 0
    some (f a, requests)
  | .vector2 f => do
    let a ← vector job m ins 0
    let b ← vector job m ins 1
    some (f a b, requests)
  | .vector3 f => do
    let a ← vector job m ins 0
    let b ← vector job m ins 1
    let c ← vector job m ins 2
    some (f a b c, requests)
  | .scalar1 f => do
    let a ← vector job m ins 0
    some (f a.x, requests)
  | .scalar2 f => do
    let a ← vector job m ins 0
    let b ← vector job m ins 1
    some (f a.x b.x, requests)
  | .derivative axis => do
    let s ← ins.sources[0]?
    derive pc s axis m requests
  | .lookup mode => do
    let image ← ins.texture
    let asked ← request job m requests ins image mode
    some (job.sampler.answer requests asked, requests.push asked)

/-! ## Runs -/

/-- Runs instructions, the first of which is number `pc`, to their end, to an `END`, or to a
`KIL` that discards the fragment. -/
def runFrom (derive : Deriver) :
    Nat → List Instruction → Machine → Array Request → Option (Machine × Array Request)
  | _, [], m, requests => some (m, requests)
  | pc, ins :: rest, m, requests =>
    match ins.opcode.action with
    | .compute c => do
      let (value, requests) ← compute job derive pc ins m requests c
      runFrom derive (pc + 1) rest (m.store ins value).1 requests
    | .kill =>
      if m.kills ins.condition then some (m, requests) else runFrom derive (pc + 1) rest m requests
    | .halt => some (m, requests)

/-- The difference between an operand on the machine of the neighbouring fragment and here.  That
machine has gone through the instructions before the derivative. -/
def difference (derive : Deriver) : Deriver := fun pc s axis m requests => do
  let (shadow, requests) ←
    runFrom job derive 0 (job.program.instructions.take pc) (job.neighbour m axis) requests
  some (Quad.zipWith Binary32.sub (shadow.fetch job.program s) (m.fetch job.program s), requests)

/-- The derivative with `levels` nested runs left. -/
def derivative : Nat → Deriver
  | levels, pc, s, axis, m, requests =>
    match s.register with
    | .input i => some (job.inputOperandDerivative m s i axis, requests)
    | .parameter _ => some (Quad.zero, requests)
    | .localParameter _ => some (Quad.zero, requests)
    | .temporary _ =>
      match levels with
      | 0 => none
      | levels + 1 => difference job (derivative levels) pc s axis m requests

variable {job}

/-- An instruction with a result stores it, and the run goes on. -/
theorem runFrom_compute {derive : Deriver} {pc : Nat} {ins : Instruction} {c : Computation}
    (haction : ins.opcode.action = .compute c) (rest : List Instruction) (m : Machine)
    (requests : Array Request) :
    runFrom job derive pc (ins :: rest) m requests =
      (compute job derive pc ins m requests c).bind fun found =>
        runFrom job derive (pc + 1) rest (m.store ins found.1).1 found.2 := by
  rw [runFrom, haction]
  rfl

end Reference

end FragmentAssembly
