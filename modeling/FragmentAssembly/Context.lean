import FragmentAssembly.Compile
import FragmentAssembly.Execution.Interpreter

/-!
# Contexts

A context has at most one bound program.  Loading a text binds its program, and a text that does
not compile leaves the bound program as it is.

Programs live in numbered places.  Handles to the bound program can be handed out, and the program
in a place that a handle names never changes: setting a parameter of it binds a copy in a new
place first.
-/

namespace FragmentAssembly

inductive ContextError where
  | noProgram
  | invalidLocalParameter (index : Nat)
  | undefinedParameter (name : String)
  /-- The name is that of a constant. -/
  | constantParameter (name : String)
deriving DecidableEq, Repr

def ContextError.message : ContextError → String
  | noProgram => "no program loaded"
  | invalidLocalParameter index =>
    "local parameter index " ++ toString index ++ " out of range"
  | undefinedParameter name => "program has no parameter named '" ++ name ++ "'"
  | constantParameter name => "'" ++ name ++ "' is a constant and can not be changed"

structure Context where
  programs : Array Program := #[]
  /-- The place of the bound program. -/
  bound : Option Nat := none
  /-- The places of the handles, in the order in which they were handed out. -/
  handles : Array Nat := #[]
  /-- Where the last text that was loaded is wrong. -/
  errorPosition : Option Nat := none
  errorText : String := ""
  notes : Array Note := #[]

namespace Context

def program? (c : Context) : Option Program :=
  c.bound.bind (c.programs[·]?)

/-- The program of a handle. -/
def handleProgram? (c : Context) (handle : Nat) : Option Program :=
  c.handles[handle]?.bind (c.programs[·]?)

/-- Whether a handle names the place of the bound program. -/
def isBoundTo (c : Context) (handle : Nat) : Bool :=
  match c.bound, c.handles[handle]? with
  | some place, some held => place = held
  | _, _ => false

/-- Hands out a handle to the bound program. -/
def handOut (c : Context) : Option Nat × Context :=
  match c.bound with
  | some place => (some c.handles.size, { c with handles := c.handles.push place })
  | none => (none, c)

/-- Binds a program in a new place. -/
def bind (c : Context) (p : Program) : Context :=
  { c with programs := c.programs.push p, bound := some c.programs.size }

/-- Compiles a text and binds its program. -/
def load (c : Context) (source : String) : Except ParseError Unit × Context :=
  let made := compilation source
  let c := { c with notes := c.notes ++ made.notes }
  match made.result with
  | .ok p =>
    let bound := Note.programBound p.instructions.length p.inputsRead p.outputsWritten
    (.ok (),
      { c with errorPosition := none, errorText := "", notes := c.notes.push bound }.bind p)
  | .error e =>
    (.error e,
      { c with
        errorPosition := some e.position
        errorText := e.cause.message
        notes := c.notes.push (.programRejected e) })

/-- Puts the bound program into a place that no handle names, by a copy if need be. -/
def own (c : Context) : Except ContextError (Nat × Program × Context) :=
  match c.bound with
  | none => .error .noProgram
  | some place =>
    match c.programs[place]? with
    | none => .error .noProgram
    | some p =>
      if c.handles.contains place then .ok (c.programs.size, p, c.bind p)
      else .ok (place, p, c)

/-- Replaces the program in a place. -/
def put (c : Context) (place : Nat) (p : Program) : Context :=
  { c with programs := c.programs.setIfInBounds place p }

def setLocalParameter (c : Context) (index : Nat) (value : Vec4) :
    Except ContextError Unit × Context :=
  if h : index < localParameterCount then
    match c.own with
    | .error e => (.error e, c)
    | .ok (place, p, c) =>
      (.ok (), c.put place { p with localParameters := p.localParameters.set index value h })
  else (.error (.invalidLocalParameter index), c)

/-- Sets a declared parameter.  The program is made the context's own before the name is looked
up. -/
def setNamedParameter (c : Context) (name : String) (value : Vec4) :
    Except ContextError Unit × Context :=
  match c.own with
  | .error e => (.error e, c)
  | .ok (place, p, c) =>
    match p.parameters.lookup? name with
    | none => (.error (.undefinedParameter name), c)
    | some index =>
      if (p.parameters.get? index).any (·.kind = .declared) then
        (.ok (), c.put place { p with parameters := p.parameters.setValue index value })
      else (.error (.constantParameter name), c)

/-- What a span run of a context gives: the number of killed fragments, the span with the results,
and the lookups. -/
structure SpanRun where
  killed : Nat
  span : Span
  requests : Array Request

/-- Runs the bound program on every live fragment.  A compiled program meets no fault on a span,
and a run that did would count as one that changed nothing. -/
def executeSpan (c : Context) (span : Span) (sampler : Sampler) :
    Except ContextError SpanRun × Context :=
  match c.program? with
  | none => (.error .noProgram, c)
  | some p =>
    match Interpreter.runSpan p sampler span {} with
    | .ok (killed, span) s =>
      (.ok ⟨killed, span, s.requests⟩, { c with notes := c.notes ++ s.notes })
    | .error _ s => (.ok ⟨0, span, s.requests⟩, { c with notes := c.notes ++ s.notes })

end Context

end FragmentAssembly
