import FragmentAssembly.Execution.Derivative

/-!
# Running programs on fragments

`execute` runs a program on one fragment of a span from a reset machine, `executeUntil` runs its
beginning on the machine as it is, and `runSpan` runs it on every live fragment and enters the
results in the span.
-/

namespace FragmentAssembly

namespace Interpreter

def job (p : Program) (sampler : Sampler) (span : Span) (fragment : Nat)
    (startCodes : Quad CondCode) : Job :=
  ⟨p, sampler, span, fragment, startCodes⟩

/-- Resets the machine and loads the inputs of a fragment. -/
def load (p : Program) (span : Span) (fragment : Nat) : Exec Unit :=
  match span.fragments[fragment]? with
  | some f => modify fun s => { s with machine := s.machine.load p f.inputs }
  | none => throw (.fragmentOutOfRange fragment)

/-- Runs the instructions before `stop` on the machine as it is. -/
def executeUntil (p : Program) (sampler : Sampler) (span : Span) (fragment stop : Nat) :
    Exec Outcome := do
  Exec.setTooDeep false
  (job p sampler span fragment (← get).machine.codes).run stop

def execute (p : Program) (sampler : Sampler) (span : Span) (fragment : Nat) : Exec Outcome := do
  load p span fragment
  executeUntil p sampler span fragment p.instructions.length

/-- The color result, which is that in half precision if the program writes it. -/
def color (p : Program) (m : Machine) : Vec4 :=
  if p.writesOutput .colh then m.outputs.get OutputIndex.colh else m.outputs.get OutputIndex.colr

/-- A fragment after a run that ended with machine `m`. -/
def finish (p : Program) (m : Machine) (f : Fragment) : Outcome → Fragment
  | .killed => { f with live := false }
  | .complete =>
    { f with
      color := color p m
      depth := if p.writesOutput .depr then (m.outputs.get OutputIndex.depr).z else f.depth }

/-- Runs the fragments with the given numbers, and returns how many were killed. -/
def runFragments (p : Program) (sampler : Sampler) : List Nat → Span → Exec (Nat × Span)
  | [], span => return (0, span)
  | i :: rest, span => do
    match span.fragments[i]? with
    | some f =>
      if f.live then
        let outcome ← execute p sampler span i
        let f := finish p (← get).machine f outcome
        let (killed, span) ←
          runFragments p sampler rest { span with fragments := span.fragments.set i f }
        return (if outcome = .killed then killed + 1 else killed, span)
      else runFragments p sampler rest span
    | none => runFragments p sampler rest span

/-- Runs every live fragment, and returns how many were killed and the span with the results. -/
def runSpan (p : Program) (sampler : Sampler) (span : Span) : Exec (Nat × Span) := do
  let (killed, span) ← runFragments p sampler (List.range span.size) span
  Exec.note (.spanDone span.size killed)
  return (killed, span)

end Interpreter

end FragmentAssembly
