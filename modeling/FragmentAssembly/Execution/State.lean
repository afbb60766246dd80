import FragmentAssembly.Execution.Machine
import FragmentAssembly.Execution.Sampler
import FragmentAssembly.Note

/-!
# States of execution

A run changes its machine and leaves a trace: the lookups it made, the events that it showed to
listeners, and its notes.  A run that meets a fault keeps the state that it had reached.
-/

namespace FragmentAssembly

/-- How many runs of a program can be nested in each other for derivatives. -/
def maxDerivativeDepth : Nat := 4

inductive Event where
  /-- An instruction is about to be executed. -/
  | instruction (pc position : Nat) (opcode : Opcode)
  /-- A register got a new value. -/
  | write (register : Writable) (value : Vec4)
  /-- The fragment was discarded. -/
  | kill (pc : Nat)
deriving DecidableEq, Repr

/-- What keeps a run from going on.  Only a wrong fragment index can do so for a program that was
compiled. -/
inductive Fault where
  | fragmentOutOfRange (fragment : Nat)
  | missingSource (operand : Nat)
  | missingTexture
deriving DecidableEq, Repr

inductive Outcome where
  | complete
  | killed
deriving DecidableEq, Repr

/-- What the listeners of a run were shown.  Without a listener nothing is kept. -/
abbrev Listeners := Option (Array Event)

/-- Shows an event to the listeners, if there are any. -/
def Listeners.dispatch (l : Listeners) (e : Event) : Listeners :=
  l.map (·.push e)

structure ExecState where
  machine : Machine := {}
  /-- Set when a derivative would have needed more nested runs than are allowed. -/
  tooDeep : Bool := false
  requests : Array Request := #[]
  events : Listeners := none
  notes : Array Note := #[]
deriving DecidableEq, Repr

abbrev Exec := EStateM Fault ExecState

namespace Exec

def note (n : Note) : Exec Unit :=
  modify fun s => { s with notes := s.notes.push n }

/-- Listeners see the run of the fragment itself, not the runs nested in it. -/
def emit (depth : Nat) (e : Event) : Exec Unit :=
  modify fun s => if depth = 0 then { s with events := s.events.dispatch e } else s

def setTooDeep (b : Bool) : Exec Unit :=
  modify fun s => { s with tooDeep := b }

/-- Asks the sampler, and enters the request in the trace. -/
def sample (sampler : Sampler) (request : Request) : Exec Vec4 :=
  modifyGet fun s =>
    (sampler.answer s.requests request, { s with requests := s.requests.push request })

end Exec

end FragmentAssembly
