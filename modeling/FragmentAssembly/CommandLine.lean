import FragmentAssembly.Binary32.Argument
import FragmentAssembly.CommandLine.Arguments
import FragmentAssembly.Compile
import FragmentAssembly.Execution.Interpreter
import FragmentAssembly.Text.Blank

/-!
# The command line

The tool compiles a program, prints its disassembly, and runs it on one fragment whose inputs and
local parameters are given as arguments.  Everything but reading the file and printing is here.
-/

namespace FragmentAssembly.CommandLine

/-! ## Values -/

inductive ArgumentError where
  | tooManyComponents (text : String)
  | invalidNumber (text : String)
  | notAnAssignment (text : String)
  | unknownInput (name : String)
  | invalidLocalParameter (index : String)
deriving DecidableEq, Repr

def ArgumentError.message : ArgumentError → String
  | tooManyComponents text => "too many components in '" ++ text ++ "'"
  | invalidNumber text => "invalid number '" ++ text ++ "'"
  | notAnAssignment text => "expected NAME=X,Y,Z,W, got '" ++ text ++ "'"
  | unknownInput name => "unknown input register '" ++ name ++ "'"
  | invalidLocalParameter index => "invalid local parameter '" ++ index ++ "'"

/-- The parts of a text between commas. -/
def commaParts (text : List Char) : List (List Char) :=
  text.splitOn ','

def number (part : List Char) : Except ArgumentError Binary32 :=
  match Binary32.ofArgument? (trimWhiteSpace part) with
  | some a => .ok a
  | none => .error (.invalidNumber (String.ofList part))

/-- The numbers of at most `room` parts. -/
def numbers (text : List Char) : Nat → List (List Char) → Except ArgumentError (List Binary32)
  | _, [] => .ok []
  | 0, _ :: _ => .error (.tooManyComponents (String.ofList text))
  | room + 1, part :: parts => do
    let a ← number part
    return a :: (← numbers text room parts)

/-- A vector of one to four numbers, where missing ones are those of `(0, 0, 0, 1)`. -/
def vector (text : List Char) : Except ArgumentError Vec4 := do
  let values ← numbers text 4 (commaParts text)
  return ⟨values.getD 0 .zero, values.getD 1 .zero, values.getD 2 .zero, values.getD 3 .one⟩

/-- The trimmed name in front of the first equals sign, and the vector behind it. -/
def assignment (text : String) : Except ArgumentError (List Char × Vec4) :=
  let cs := text.toList
  match cs.dropWhile (· ≠ '=') with
  | [] => .error (.notAnAssignment text)
  | _ :: value => do
    let v ← vector value
    return (trimWhiteSpace (cs.takeWhile (· ≠ '=')), v)

/-- A count of at most 64 bits, which may have a plus sign. -/
def natural? (cs : List Char) : Option Nat :=
  let digits :=
    match cs with
    | '+' :: digits => digits
    | digits => digits
  let n := Nat.ofDigitChars 10 digits 0
  if digits.isEmpty || !digits.all Char.isDigit || UInt64.size ≤ n then none else some n

def setInput (inputs : Vector Vec4 inputCount) (text : String) :
    Except ArgumentError (Vector Vec4 inputCount) := do
  let (name, value) ← assignment text
  match registerNamed? inputNames (String.ofList name) with
  | some i => return inputs.set i.val value i.isLt
  | none => throw (.unknownInput (String.ofList name))

def setParam (params : Vector Vec4 localParameterCount) (text : String) :
    Except ArgumentError (Vector Vec4 localParameterCount) := do
  let (name, value) ← assignment text
  match natural? name with
  | some i =>
    if h : i < localParameterCount then return params.set i value h
    else throw (.invalidLocalParameter (String.ofList name))
  | none => throw (.invalidLocalParameter (String.ofList name))

/-- What a run needs besides the program. -/
structure Setting where
  inputs : Vector Vec4 inputCount
  params : Vector Vec4 localParameterCount
  texture : Vec4

/-- Inputs come first, then local parameters, then the texture. -/
def setting (r : Request) : Except ArgumentError Setting := do
  let inputs ← (r.valuesOf .input).foldlM setInput (Vector.replicate _ Quad.zero)
  let params ← (r.valuesOf .param).foldlM setParam (Vector.replicate _ Quad.zero)
  let texture ←
    match (r.valuesOf .texture).head? with
    | some text => vector text.toList
    | none => .ok (Quad.replicate .one)
  return ⟨inputs, params, texture⟩

/-! ## Running -/

/-- What the tool prints, and whether it was successful. -/
structure Report where
  output : String := ""
  errors : String := ""
  code : Nat := 0
deriving DecidableEq, Repr

def outputLine (m : Machine) (i : OutputIndex) : String :=
  "o[" ++ outputNames.get i ++ "] = " ++ Vec4.text .plain "(" ")" (m.outputs.get i) ++ "\n"

def results (p : Program) (m : Machine) : Outcome → String
  | .killed => "fragment killed\n"
  | .complete =>
    String.join (((List.finRange outputCount).filter p.writesOutput).map (outputLine m))

/-- The output of a run on a single fragment.  Its index is in range, so no fault arises. -/
def runOutput (p : Program) (s : Setting) : String :=
  let p := { p with localParameters := s.params }
  let span := Span.single { inputs := s.inputs }
  match Interpreter.execute p (.solid s.texture) span 0 {} with
  | .ok outcome state => results p state.machine outcome
  | .error _ _ => ""

/-- The disassembly is printed before the arguments are looked at. -/
def runProgram (p : Program) (r : Request) : Report :=
  match setting r with
  | .ok s => { output := p.disassembly ++ runOutput p s }
  | .error e =>
    { output := p.disassembly, errors := "Invalid argument: " ++ e.message ++ "\n", code := 1 }

/-- The report for the text of the program file, or for a file that does not exist. -/
def report (r : Request) : Option String → Report
  | none => { errors := "IO error: No such file or directory (os error 2)\n", code := 1 }
  | some source =>
    match compile source with
    | .ok p => runProgram p r
    | .error e => { errors := "Parse error " ++ e.locatedMessage source ++ "\n", code := 1 }

/-- The file that arguments name, if they can be read. -/
def requestedFile? (arguments : List String) : Option String :=
  match readArguments arguments with
  | .ok r => r.file
  | .error _ => none

/-- The report for arguments, where `source` is the text of the file that they name. -/
def respond (arguments : List String) (source : Option String) : Report :=
  match readArguments arguments with
  | .ok r => report r source
  | .error (e, r) => { errors := e.message r, code := 1 }

end FragmentAssembly.CommandLine
