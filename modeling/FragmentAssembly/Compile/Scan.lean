import FragmentAssembly.Binary32.Decimal
import FragmentAssembly.Compile.Error
import FragmentAssembly.Text.Cursor

/-!
# Reading from a cursor

The actions that read one item of program text.  An action that fails leaves the cursor where the
item was looked for or, if it was not the one expected, behind it; the error lies at the start of
the token that was read last unless something else is said.
-/

namespace FragmentAssembly

abbrev Scan := EStateM ParseError Cursor

/-- Adds a construct to the errors of an action. -/
def within {σ α : Type} (c : Construct) (m : EStateM ParseError σ α) :
    EStateM ParseError σ α :=
  fun s =>
    match m s with
    | .ok a s => .ok a s
    | .error e s => .error (e.inside c) s

namespace Scan

def fail {α : Type} (cause : ErrorCause) : Scan α :=
  fun k => .error ⟨cause, k.tokenStart, []⟩ k

/-- An action on the rest of the text.  The rest is cut out of the text, which cannot be done inside
a character: that is no error of the text but one of the program, and no compilation comes to it. -/
def onRest {α : Type} (read : Cursor → EStateM.Result ParseError Cursor α) : Scan α :=
  fun k => if k.inside.isEmpty then read k else .error ⟨.splitCharacter, k.position, []⟩ k

/-- Fails at the next token. -/
def failAhead {α : Type} (cause : ErrorCause) : Scan α :=
  onRest fun k => .error ⟨cause, k.skipIgnored.position, []⟩ k.skipIgnored

def token? : Scan (Option Token) :=
  onRest fun k => .ok k.next.1 k.next.2

/-- The next token, which is left to be read. -/
def peek? : Scan (Option Token) :=
  onRest fun k => .ok k.peek? k

def accept (expected : String) : Scan Bool :=
  onRest fun k => .ok (k.accept expected).1 (k.accept expected).2

def acceptWord (word : String) : Scan Bool :=
  onRest fun k => .ok (k.acceptWord word).1 (k.acceptWord word).2

def token : Scan Token := do
  match ← token? with
  | some token => return token
  | none => fail .unexpectedEnd

/-- Reads `expected`, or fails at the token that stands in its place. -/
def expect (expected : String) : Scan Unit := do
  if ← accept expected then
    return ()
  match ← token? with
  | some _ => fail (.expected expected)
  | none => fail .unexpectedEnd

/-- Reads a number, or fails at the place where it should start. -/
def number : Scan Binary32 :=
  onRest fun k =>
    let k := k.skipIgnored
    match Numeral.ofChars? k.rest with
    | some n => .ok (Binary32.ofNumeral n) (k.markToken.advance n.chars.length)
    | none =>
      .error ⟨if k.rest.isEmpty then .unexpectedEnd else .invalidNumber, k.position, []⟩ k

/-- Integers have at most 64 bits. -/
def integer : Scan Nat := do
  match ← token with
  | .integer digits =>
    let n := Nat.ofDigitChars 10 digits.toList 0
    if n < UInt64.size then return n else fail .invalidNumber
  | _ => fail (.expected "integer")

def identifier : Scan String := do
  match ← token with
  | .identifier name => return name
  | _ => fail (.expected "identifier")

/-- Whether nothing but blanks and comments is left. -/
def atEnd : Scan Bool := do
  return (← peek?).isNone

end Scan

end FragmentAssembly
