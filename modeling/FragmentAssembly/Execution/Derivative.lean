import FragmentAssembly.Execution.Run

/-!
# Derivatives

The derivative of an input is its step in the span.  Any other value is computed once more for the
neighbouring fragment, by running the instructions before the derivative on a machine whose inputs
are moved by one step, and the derivative is the difference.  Such runs nest up to
`maxDerivativeDepth`; a derivative that would need more is zero, and so is the outermost one that
depends on it.
-/

namespace FragmentAssembly

namespace Job

/-- The step of an input.  Texture coordinates are divided by the last one. -/
def inputDerivative (job : Job) (m : Machine) (i : InputIndex) (axis : Axis) : Vec4 :=
  let step := (job.span.step axis).get i
  if i.isTextureCoordinate then
    let inverse := (m.inputs.get i).w.reciprocal
    step.map (·.mul inverse)
  else step

/-- The derivative of an operand that reads an input. -/
def inputOperandDerivative (job : Job) (m : Machine) (s : Source) (i : InputIndex) (axis : Axis) :
    Vec4 :=
  s.modifyDerivative ((m.inputs.get i).select s.swizzle)
    ((job.inputDerivative m i axis).select s.swizzle)

/-- The machine of the neighbouring fragment before its first instruction. -/
def neighbour (job : Job) (m : Machine) (axis : Axis) : Machine where
  inputs := Vector.ofFn fun i =>
    if job.program.readsInput i then
      Quad.zipWith Binary32.add (m.inputs.get i) (job.inputDerivative m i axis)
    else Quad.zero
  codes := job.startCodes

/-- Runs an action on another machine, and returns that machine unless the action went too deep.
Everything but the trace is as before afterwards. -/
def onMachine (other : Machine) (action : Exec Outcome) : Exec (Option Machine) :=
  fun s =>
    let restore (t : ExecState) : ExecState := { t with machine := s.machine, tooDeep := s.tooDeep }
    match action { s with machine := other, tooDeep := false } with
    | .ok _ t => .ok (if t.tooDeep then none else some t.machine) (restore t)
    | .error fault t => .error fault (restore t)

/-- The derivative by a nested run of depth `depth + 1`, in which derivatives are found by
`inner`. -/
def difference (job : Job) (depth : Nat) (inner : Deriver) : Deriver := fun pc s axis => do
  Exec.note (.rerun pc (depth + 1) axis)
  let m := (← get).machine
  let nested := job.runFrom (depth + 1) inner 0 (job.program.instructions.take pc)
  match ← onMachine (job.neighbour m axis) nested with
  | some shadow =>
    return Quad.zipWith Binary32.sub (shadow.fetch job.program s) (m.fetch job.program s)
  | none =>
    Exec.setTooDeep true
    return Quad.zero

/-- The outermost derivative that goes too deep is zero, and the run goes on. -/
def settle (depth pc : Nat) (value : Vec4) : Exec Vec4 := do
  if depth = 0 && (← get).tooDeep then
    Exec.note (.derivativeTooDeep pc)
    Exec.setTooDeep false
    return Quad.zero
  else
    return value

/-- The depth of a run that may have `levels` more runs nested in it. -/
def depthAt (levels : Nat) : Nat :=
  maxDerivativeDepth - levels

/-- The derivative in a run that may have `levels` more runs nested in it. -/
def derivative (job : Job) : Nat → Deriver
  | levels, pc, s, axis =>
    match s.register with
    | .input i => return job.inputOperandDerivative (← get).machine s i axis
    | .parameter _ => return Quad.zero
    | .localParameter _ => return Quad.zero
    | .temporary _ =>
      match levels with
      | 0 => do
        Exec.setTooDeep true
        return Quad.zero
      | levels + 1 => do
        let depth := depthAt (levels + 1)
        settle depth pc (← job.difference depth (job.derivative levels) pc s axis)

/-- Runs the instructions before `stop` on the machine of the state. -/
def run (job : Job) (stop : Nat) : Exec Outcome :=
  job.runFrom 0 (job.derivative maxDerivativeDepth) 0 (job.program.instructions.take stop)

end Job

end FragmentAssembly
