import FragmentAssembly.Text.Location

/-!
# Errors of program text

The first error ends a compilation.  It has a cause, the byte where it was found, and the
constructs that were being read, the innermost one first.
-/

namespace FragmentAssembly

/-- Whether the text is malformed, or well formed but against a rule of the instruction set. -/
inductive ErrorCategory where
  | syntactic
  | semantic
deriving DecidableEq, Repr

inductive ErrorCause where
  | invalidHeader
  /-- The header of a register combiner program. -/
  | combinerProgram
  | unexpectedEnd
  | expected (what : String)
  | unexpectedToken
  | unknownInstruction (name : String) (suggestion : Option String)
  | invalidSuffix
  | undefinedSymbol (name : String)
  | duplicateSymbol (name : String)
  | reservedIdentifier (name : String)
  | invalidTemporary
  | invalidInputRegister
  | invalidOutputRegister
  | conflictingColorOutputs
  | invalidLocalParameter
  | invalidTextureUnit
  | invalidTextureTarget
  | textureTargetConflict (unit : Nat)
  | invalidSwizzle
  | invalidWriteMask
  | invalidCondition
  | invalidNumber
  | invalidDestination
  | invalidSource
  | codeAfterEnd
  | missingEnd
  | programTooLong
  | noOutputsWritten
  /-- The text was to be cut inside a character, which stops the program.  No compilation does. -/
  | splitCharacter
deriving DecidableEq, Repr

namespace ErrorCause

def category : ErrorCause → ErrorCategory
  | unknownInstruction _ _ => .semantic
  | invalidSuffix => .semantic
  | undefinedSymbol _ => .semantic
  | duplicateSymbol _ => .semantic
  | reservedIdentifier _ => .semantic
  | invalidTemporary => .semantic
  | invalidInputRegister => .semantic
  | invalidOutputRegister => .semantic
  | invalidLocalParameter => .semantic
  | invalidTextureUnit => .semantic
  | conflictingColorOutputs => .semantic
  | textureTargetConflict _ => .semantic
  | programTooLong => .semantic
  | noOutputsWritten => .semantic
  | _ => .syntactic

def message : ErrorCause → String
  | invalidHeader => "expected '!!FP1.0' header"
  | combinerProgram => "fragment combiner programs are not supported"
  | unexpectedEnd => "unexpected end of program"
  | expected what => "expected " ++ what
  | unexpectedToken => "unexpected token"
  | unknownInstruction name (some suggestion) =>
    "unknown instruction '" ++ name ++ "', did you mean '" ++ suggestion ++ "'?"
  | unknownInstruction name none => "unknown instruction '" ++ name ++ "'"
  | invalidSuffix => "invalid instruction suffix"
  | undefinedSymbol name => "undefined symbol '" ++ name ++ "'"
  | duplicateSymbol name => "duplicate definition of '" ++ name ++ "'"
  | reservedIdentifier name => "'" ++ name ++ "' is a reserved identifier"
  | invalidTemporary => "invalid temporary register"
  | invalidInputRegister => "invalid fragment input register"
  | invalidOutputRegister => "invalid result register"
  | conflictingColorOutputs => "illegal to write to both o[COLR] and o[COLH]"
  | invalidLocalParameter => "invalid local parameter register"
  | invalidTextureUnit => "invalid texture image unit"
  | invalidTextureTarget => "invalid texture target"
  | textureTargetConflict unit =>
    "texture unit " ++ toString unit ++ " used with conflicting targets"
  | invalidSwizzle => "invalid swizzle"
  | invalidWriteMask => "invalid write mask"
  | invalidCondition => "invalid condition code mask"
  | invalidNumber => "invalid number"
  | invalidDestination => "invalid destination register"
  | invalidSource => "invalid source register"
  | codeAfterEnd => "extra characters after END"
  | missingEnd => "missing END statement"
  | programTooLong => "too many instructions"
  | noOutputsWritten => "program does not write any result register"
  | splitCharacter => "byte index is not a char boundary"

end ErrorCause

/-- The constructs that an error can lie in. -/
inductive Construct where
  | vectorConstant
  | scalarConstant
  | conditionCode
  | vectorSource
  | scalarSource
  | destinationRegister
  | textureImage
  | defineStatement
  | declareStatement
  | instruction
deriving DecidableEq, Repr

def Construct.text : Construct → String
  | vectorConstant => "vector constant"
  | scalarConstant => "scalar constant"
  | conditionCode => "condition code"
  | vectorSource => "vector source"
  | scalarSource => "scalar source"
  | destinationRegister => "destination register"
  | textureImage => "texture image"
  | defineStatement => "DEFINE statement"
  | declareStatement => "DECLARE statement"
  | instruction => "instruction"

structure ParseError where
  cause : ErrorCause
  position : Nat
  constructs : List Construct := []
deriving DecidableEq, Repr

namespace ParseError

/-- The error as seen from a construct around it. -/
def inside (c : Construct) (e : ParseError) : ParseError :=
  { e with constructs := e.constructs ++ [c] }

/-- The constructs are written from the outside in. -/
def message (e : ParseError) : String :=
  "error at position " ++ toString e.position ++ ": "
    ++ String.join (e.constructs.reverse.map fun c => c.text ++ ": ")
    ++ e.cause.message

def location (e : ParseError) (source : String) : Location :=
  Location.ofPosition source e.position

def locatedMessage (e : ParseError) (source : String) : String :=
  let place := e.location source
  "at line " ++ toString place.line ++ " col " ++ toString place.column ++ ": "
    ++ e.cause.message ++ ", at '" ++ place.excerpt ++ "'"

end ParseError

end FragmentAssembly
