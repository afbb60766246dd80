import FragmentAssembly.Execution.Action
import FragmentAssembly.Execution.State

/-!
# Running a program

The instructions of a program are executed in order until it ends or discards its fragment.  How
a derivative is found is left open here: `runFrom` takes it as an argument.
-/

namespace FragmentAssembly

/-- What stays the same during a run and the runs nested in it. -/
structure Job where
  program : Program
  sampler : Sampler
  span : Span
  fragment : Nat
  /-- The condition codes that the run started with. -/
  startCodes : Quad CondCode

/-- Finds the derivative of a source operand along an axis, before instruction `pc`. -/
abbrev Deriver := Nat → Source → Axis → Exec Vec4

/-- What an instruction does to the run. -/
inductive Flow where
  | next
  | kill
  | halt
deriving DecidableEq, Repr

namespace Job

def fetch (job : Job) (s : Source) : Exec Vec4 := do
  return (← get).machine.fetch job.program s

def source (ins : Instruction) (n : Nat) : Exec Source :=
  match ins.sources[n]? with
  | some s => return s
  | none => throw (.missingSource n)

def vector (job : Job) (ins : Instruction) (n : Nat) : Exec Vec4 := do
  job.fetch (← source ins n)

def scalar (job : Job) (ins : Instruction) (n : Nat) : Exec Binary32 := do
  return (← job.vector ins n).x

/-! ## Texture lookups -/

/-- The level of detail of the fragment. -/
def fragmentLambda (job : Job) (unit : TextureUnit) : Exec Binary32 :=
  match job.span.fragments[job.fragment]? with
  | some f => return f.lambda.get unit
  | none => throw (.fragmentOutOfRange job.fragment)

/-- Coordinates divided by the last one, unless that is zero. -/
def project (v : Vec4) : Vec4 :=
  if v.w.eq .zero then v else ⟨v.x.div v.w, v.y.div v.w, v.z.div v.w, v.w⟩

def request (job : Job) (ins : Instruction) (image : TextureImage) (mode : LookupMode) :
    Exec Request := do
  let coordinates ← job.vector ins 0
  let lambda ← job.fragmentLambda image.unit
  match mode with
  | .plain => return ⟨image.unit, image.target, coordinates, lambda⟩
  | .biased => return ⟨image.unit, image.target, coordinates, lambda.add coordinates.w⟩
  | .projective => return ⟨image.unit, image.target, project coordinates, lambda⟩
  | .derivatives =>
    let ddx ← job.vector ins 1
    let ddy ← job.vector ins 2
    let (width, height) := job.sampler.imageSize (← get).requests image.unit
    return ⟨image.unit, image.target, coordinates, levelOfDetail ddx ddy width height⟩

def lookup (job : Job) (ins : Instruction) (mode : LookupMode) : Exec Vec4 := do
  match ins.texture with
  | some image => Exec.sample job.sampler (← job.request ins image mode)
  | none => throw .missingTexture

/-! ## Instructions -/

def compute (job : Job) (derive : Deriver) (pc : Nat) (ins : Instruction) :
    Computation → Exec Vec4
  | .constant value => return value
  | .vector1 f => return f (← job.vector ins 0)
  | .vector2 f => do
    let a ← job.vector ins 0
    let b ← job.vector ins 1
    return f a b
  | .vector3 f => do
    let a ← job.vector ins 0
    let b ← job.vector ins 1
    let c ← job.vector ins 2
    return f a b c
  | .scalar1 f => return f (← job.scalar ins 0)
  | .scalar2 f => do
    let a ← job.scalar ins 0
    let b ← job.scalar ins 1
    return f a b
  | .derivative axis => do derive pc (← source ins 0) axis
  | .lookup mode => job.lookup ins mode

def store (depth : Nat) (ins : Instruction) (value : Vec4) : Exec Unit := do
  let s ← get
  let (machine, written) := s.machine.store ins value
  set { s with machine }
  match written with
  | some (register, value) => Exec.emit depth (.write register value)
  | none => return ()

def step (job : Job) (depth : Nat) (derive : Deriver) (pc : Nat) (ins : Instruction) :
    Exec Flow := do
  match ins.opcode.action with
  | .compute c =>
    store depth ins (← job.compute derive pc ins c)
    return .next
  | .kill => return if (← get).machine.kills ins.condition then .kill else .next
  | .halt => return .halt

def discard (job : Job) (depth pc : Nat) : Exec Outcome := do
  if depth = 0 then
    Exec.note (.fragmentKilled pc job.fragment)
  Exec.emit depth (.kill pc)
  return .killed

/-- Runs instructions, the first of which is number `pc`.  A nested run whose result is already
known to be of no use ends early. -/
def runFrom (job : Job) (depth : Nat) (derive : Deriver) : Nat → List Instruction → Exec Outcome
  | _, [] => return .complete
  | pc, ins :: rest => do
    Exec.emit depth (.instruction pc ins.position ins.opcode)
    match ← job.step depth derive pc ins with
    | .halt => return .complete
    | .kill => job.discard depth pc
    | .next => if (← get).tooDeep then return .complete else job.runFrom depth derive (pc + 1) rest

end Job

end FragmentAssembly
