/-!
# Arguments

The tool takes a file and options with values.  A value is attached to its option or is the next
argument, and an argument that begins with a minus sign and goes on is an option wherever it
stands, unless it is behind `--`.
-/

namespace FragmentAssembly.CommandLine

/-! ## Options -/

inductive OptionKind where
  | input
  | param
  | texture
deriving DecidableEq, Repr

namespace OptionKind

/-- The options by name. -/
def all : List OptionKind :=
  [input, param, texture]

def usage : OptionKind → String
  | input => "--input <NAME=X,Y,Z,W>..."
  | param => "--param <INDEX=X,Y,Z,W>..."
  | texture => "--texture <X,Y,Z,W>"

/-- Whether the option may be used more than once. -/
def isRepeatable : OptionKind → Bool
  | input => true
  | param => true
  | texture => false

def ofLetter? : Char → Option OptionKind
  | 'i' => some input
  | 'p' => some param
  | 't' => some texture
  | _ => none

def ofName? (name : String) : Option OptionKind :=
  if name = "input" then some input
  else if name = "param" then some param
  else if name = "texture" then some texture
  else none

end OptionKind

/-! ## Requests -/

/-- What arguments ask for. -/
structure Request where
  file : Option String := none
  /-- The options as they were used. -/
  uses : List OptionKind := []
  /-- The values of options as they were given. -/
  values : List (OptionKind × String) := []
deriving DecidableEq, Repr

inductive UsageError where
  | unexpectedArgument (argument : String)
  | missingValue (option : OptionKind)
  | repeatedOption (option : OptionKind)
  | missingProgram
deriving DecidableEq, Repr

namespace Request

def use (r : Request) (kind : OptionKind) : Request :=
  { r with uses := r.uses ++ [kind] }

def add (r : Request) (kind : OptionKind) (value : String) : Request :=
  { r with values := r.values ++ [(kind, value)] }

/-- The values of one option, in the order in which they were given. -/
def valuesOf (r : Request) (kind : OptionKind) : List String :=
  (r.values.filter (·.1 = kind)).map Prod.snd

/-- The form of a call: the program and the options that were used, by name, or the general form
if there were none. -/
def usage (r : Request) : String :=
  "USAGE:\n    fprun"
    ++ (if r.uses.isEmpty then " [FLAGS] [OPTIONS] <PROGRAM>"
        else
          " <PROGRAM>" ++ String.join
            ((OptionKind.all.filter (r.uses.contains ·)).map fun kind => " " ++ kind.usage))

/-- What is wrong with the use of an option: it never got a value, or it was used too often. -/
def optionError? (r : Request) (kind : OptionKind) : Option UsageError :=
  if (r.valuesOf kind).isEmpty then some (.missingValue kind)
  else if !kind.isRepeatable && 1 < r.uses.count kind then some (.repeatedOption kind)
  else none

end Request

def UsageError.message (r : Request) (e : UsageError) : String :=
  "error: "
    ++ (match e with
        | unexpectedArgument argument =>
          "Found argument '" ++ argument ++ "' which wasn't expected, or isn't valid in this context"
        | missingValue kind =>
          "The argument '" ++ kind.usage ++ "' requires a value but none was supplied"
        | repeatedOption kind =>
          "The argument '" ++ kind.usage
            ++ "' was provided more than once, but cannot be used multiple times"
        | missingProgram => "The following required arguments were not provided:\n    <PROGRAM>")
    ++ "\n\n" ++ r.usage ++ "\n\nFor more information try --help\n"

/-! ## Reading -/

/-- The value in what follows an option within its argument; the equals signs in front of it are
not part of it. -/
def attachedValue? : List Char → Option String
  | [] => none
  | rest => some (String.ofList (rest.dropWhile (· = '=')))

/-- An option by its name, which ends before an equals sign, and its attached value. -/
def readLong (text : List Char) : Except UsageError (OptionKind × Option String) :=
  let name := String.ofList (text.takeWhile (· ≠ '='))
  match OptionKind.ofName? name with
  | some kind => .ok (kind, attachedValue? (text.dropWhile (· ≠ '=')))
  | none => .error (.unexpectedArgument ("--" ++ name))

/-- An option by its letter, and its attached value. -/
def readShort (letter : Char) (rest : List Char) :
    Except UsageError (OptionKind × Option String) :=
  match OptionKind.ofLetter? letter with
  | some kind => .ok (kind, attachedValue? rest)
  | none => .error (.unexpectedArgument ("-" ++ String.singleton letter))

/-- How far arguments have been read. -/
structure Reading where
  request : Request := {}
  /-- The option that the next argument can be the value of. -/
  pending : Option OptionKind := none
  /-- Set behind `--`, where no argument is an option or the value of one. -/
  plain : Bool := false
deriving DecidableEq, Repr

namespace Reading

def option (s : Reading) (kind : OptionKind) (attached : Option String) : Reading :=
  let r := s.request.use kind
  match attached with
  | some value => { s with request := r.add kind value, pending := none }
  | none => { s with request := r, pending := some kind }

/-- An argument that is neither an option nor the value of one. -/
def file (s : Reading) (argument : String) : Except UsageError Reading :=
  if s.request.file.isNone then .ok { s with request := { s.request with file := some argument } }
  else .error (.unexpectedArgument argument)

/-- An argument that does not have the form of an option. -/
def ordinary (s : Reading) (argument : String) : Except UsageError Reading :=
  match s.pending with
  | some kind => .ok { s with request := s.request.add kind argument, pending := none }
  | none => s.file argument

def step (s : Reading) (argument : String) : Except UsageError Reading :=
  if s.plain then s.file argument
  else
    match argument.toList with
    | ['-', '-'] => .ok { s with plain := true }
    | '-' :: '-' :: text => do
      let (kind, attached) ← readLong (text.dropWhile (· = '-'))
      return s.option kind attached
    | '-' :: letter :: rest => do
      let (kind, attached) ← readShort letter rest
      return s.option kind attached
    | _ => s.ordinary argument

/-- Checks a request as a whole.  An option that still waits for a value is looked at first. -/
def finish (s : Reading) : Except UsageError Request :=
  if s.request.file.isNone then .error .missingProgram
  else
    match (s.pending.toList ++ s.request.uses).findSome? s.request.optionError? with
    | some e => .error e
    | none => .ok s.request

/-- Reads arguments; an error comes with what was asked for before it. -/
def readAll (s : Reading) : List String → Except (UsageError × Request) Request
  | [] => s.finish.mapError fun e => (e, s.request)
  | argument :: rest =>
    match s.step argument with
    | .ok s => s.readAll rest
    | .error e => .error (e, s.request)

end Reading

def readArguments (arguments : List String) : Except (UsageError × Request) Request :=
  Reading.readAll {} arguments

end FragmentAssembly.CommandLine
