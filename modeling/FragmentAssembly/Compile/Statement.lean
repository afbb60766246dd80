import FragmentAssembly.Compile.Operand
import FragmentAssembly.Instruction.Pattern

/-!
# Reading statements

A statement introduces a named parameter or is an instruction, whose operands are read in the
order that the pattern of its mnemonic gives.  `END` ends the program.
-/

namespace FragmentAssembly

/-- The pattern and the suffixes of a mnemonic. -/
def readMnemonic (mnemonic : String) : Except ErrorCause (Pattern × Suffixes) :=
  match Pattern.ofMnemonic? mnemonic with
  | none => .error (.unknownInstruction mnemonic (Pattern.suggest? mnemonic))
  | some (pattern, rest) =>
    match Suffixes.ofChars? rest with
    | none => .error .invalidSuffix
    | some suffixes =>
      if pattern.suffixes.allows suffixes then .ok (pattern, suffixes) else .error .invalidSuffix

namespace Compile

/-! ## Instructions -/

/-- As many operands as `count`, with commas between them. -/
def commaSeparated {α : Type} (item : Compile α) : Nat → Compile (List α)
  | 0 => return []
  | 1 => return [← item]
  | count + 2 => do
    let first ← item
    Scan.expect ","
    return first :: (← commaSeparated item (count + 1))

/-- The operands behind the destination. -/
def operands (ins : Instruction) : Operands → Compile Instruction
  | .vectors count => return { ins with sources := ← commaSeparated vectorSource count }
  | .scalars count => return { ins with sources := ← commaSeparated scalarSource count }
  | .lookup vectors => do
    let sources ← commaSeparated vectorSource vectors
    Scan.expect ","
    let image ← within .textureImage textureImage
    return { ins with sources, texture := some image }
  | .condition => do
    let condition ← (within .conditionCode Scan.condition : Scan CondTest)
    return { ins with condition }

/-- The destination with the comma behind it, if the instruction has one. -/
def destinationOf (ins : Instruction) (writes : Bool) : Compile Instruction := do
  if writes then
    let (destination, condition) ← within .destinationRegister destination
    Scan.expect ","
    return { ins with destination := some destination, condition }
  else
    return ins

/-- The rest of an instruction after its mnemonic. -/
def instruction (mnemonic : String) : Compile Instruction := do
  let position := (← get).cursor.tokenStart
  match readMnemonic mnemonic with
  | .error cause => Scan.fail cause
  | .ok (pattern, suffixes) =>
    let ins : Instruction := {
      opcode := pattern.opcode
      precision := suffixes.precision.getD .full
      updateCodes := suffixes.update
      saturate := suffixes.saturate
      position }
    let ins ← destinationOf ins pattern.writes
    let ins ← operands ins pattern.operands
    Scan.expect ";"
    return ins

/-! ## Named parameters -/

/-- A declared parameter is zero if no value is given; a constant needs one. -/
def definitionValue : ParameterKind → Scan Vec4
  | .declared => do
    if ← Scan.accept "=" then Scan.constant else return Quad.replicate .zero
  | _ => do
    Scan.expect "="
    Scan.constant

/-- The rest of a definition after its keyword. -/
def definition (kind : ParameterKind) : Compile Unit := do
  let name ← Scan.identifier
  if isReserved name then
    Scan.fail (.reservedIdentifier name)
  if ((← get).parameters.lookup? name).isSome then
    Scan.fail (.duplicateSymbol name)
  let value ← definitionValue kind
  Scan.expect ";"
  let index ← addNamed name kind value
  note (.parameterDefined name kind index value)

/-! ## Programs -/

/-- Takes the header, which must be the very first characters. -/
def header : Scan Unit :=
  fun k =>
    if "!!FP1.0".toList.isPrefixOf k.rest then .ok () (k.advance 7)
    else if "!!FCP1.0".toList.isPrefixOf k.rest then .error ⟨.combinerProgram, 0, []⟩ k
    else .error ⟨.invalidHeader, 0, []⟩ k

/-- The `END` of a program, behind which nothing may stand. -/
def finish : Compile Instruction := do
  let position := (← get).cursor.tokenStart
  if ← Scan.atEnd then
    return { opcode := .halt, position }
  else
    Scan.failAhead .codeAfterEnd

/-- The name that a statement begins with. -/
def statementName : Scan String := do
  match ← Scan.token? with
  | none => Scan.fail .missingEnd
  | some (.identifier name) => return name
  | some _ => Scan.fail .unexpectedToken

/-- What a statement adds to the program. -/
inductive Statement where
  | definition
  | instruction (ins : Instruction)
  | finish (ins : Instruction)

/-- A statement after `count` instructions. -/
def statement (count : Nat) : Compile Statement := do
  let name ← statementName
  if maxInstructions ≤ count then
    Scan.fail .programTooLong
  else if name = "DEFINE" then
    within .defineStatement (definition .constant)
    return .definition
  else if name = "DECLARE" then
    within .declareStatement (definition .declared)
    return .definition
  else if name = "END" then
    return .finish (← finish)
  else
    let ins ← within .instruction (instruction name)
    note (.instructionRead ins.opcode ins.position (← get).cursor.line)
    return .instruction ins

/-- Statements up to `END`, after `count` instructions.  Each takes at least one character, so the
length of the text is enough fuel. -/
def statements : Nat → Nat → Compile (List Instruction)
  | 0, _ => Scan.fail .missingEnd
  | fuel + 1, count => do
    match ← statement count with
    | .definition => statements fuel count
    | .instruction ins => return ins :: (← statements fuel (count + 1))
    | .finish ins => return [ins]

/-- A whole program text. -/
def program : Compile (List Instruction) := do
  header
  statements ((← get).cursor.rest.length + 1) 0

end Compile

end FragmentAssembly
