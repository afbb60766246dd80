import FragmentAssembly.Compile.Draft

/-!
# Reading operands

Register names are checked against the sizes of the register files as they are read, and inputs,
outputs, texture units and literals are entered into the draft at once.
-/

namespace FragmentAssembly

/-! ## Register names -/

/-- The sum of an offset and a number in a machine word of 64 bits.  A number that does not fit is
taken as the greatest word.  If it is the sum that does not fit, it wraps around. -/
def wordSum (offset number : Nat) : Nat :=
  if number < UInt64.size then (offset + number) % UInt64.size else UInt64.size - 1

/-- The number in a name that has the form of a temporary, whether there is such a temporary or
not.  The letter may be of either case. -/
def temporaryNumber? (name : String) : Option Nat :=
  match name.toList with
  | [] => none
  | bank :: digits =>
    if digits.isEmpty || !digits.all Char.isDigit then none
    else if bank = 'R' || bank = 'r' then some (wordSum 0 (Nat.ofDigitChars 10 digits 0))
    else if bank = 'H' || bank = 'h' then
      some (wordSum halfTemporaryOffset (Nat.ofDigitChars 10 digits 0))
    else none

/-- Names that no parameter can have. -/
def isReserved (name : String) : Bool :=
  (ConditionRegister.ofName? name).isSome || name ∈ ["f", "o", "p"]
    || (temporaryNumber? name).isSome

/-- The number in a name that has the form of a texture unit. -/
def textureUnitNumber? (name : String) : Option Nat :=
  match name.toList with
  | 'T' :: 'E' :: 'X' :: digits =>
    if digits.isEmpty || !digits.all Char.isDigit then none
    else some (Nat.ofDigitChars 10 digits 0)
  | _ => none

/-- The swizzle of one letter, which is repeated, or of four. -/
def Swizzle.ofName? (letters : String) : Option Swizzle :=
  match letters.toList.mapM Component.ofLetter? with
  | some [a] => some (Quad.replicate a)
  | some [a, b, c, d] => some ⟨a, b, c, d⟩
  | _ => none

/-- The components that letters name, if they stand in the order of `allowed`. -/
def componentsInOrder? (allowed : List Component) : List Char → Option (List Component)
  | [] => some []
  | letter :: letters =>
    match allowed.dropWhile (·.letter ≠ letter) with
    | [] => none
    | found :: later => (componentsInOrder? later letters).map (found :: ·)

/-- The mask of letters in the order `x`, `y`, `z`, `w`, each at most once. -/
def WriteMask.ofName? (letters : String) : Option WriteMask :=
  (componentsInOrder? Swizzle.identity.toList letters.toList).map fun chosen =>
    Quad.ofFn fun c => chosen.contains c

namespace Scan

def temporary (number : Nat) : Scan TemporaryIndex :=
  if h : number < temporaryCount then return ⟨number, h⟩ else fail .invalidTemporary

/-- The rest of a local parameter after `p`. -/
def localParameter : Scan LocalParameterIndex := do
  expect "["
  let number ← integer
  if h : number < localParameterCount then
    expect "]"
    return ⟨number, h⟩
  else
    fail .invalidLocalParameter

/-! ## Constants -/

/-- More components after commas, at most `count` of them. -/
def moreComponents : Nat → Scan (List Binary32)
  | 0 => return []
  | count + 1 => do
    if ← accept "," then
      let value ← number
      return value :: (← moreComponents count)
    else
      return []

/-- The vector of one to four components, where missing ones are those of `(0, 0, 0, 1)`. -/
def vectorOfList (first : Binary32) (more : List Binary32) : Vec4 :=
  ⟨first, more.getD 0 .zero, more.getD 1 .zero, more.getD 2 .one⟩

/-- The rest of a vector after its opening brace. -/
def vectorRest : Scan Vec4 := do
  let first ← number
  let more ← moreComponents 3
  expect "\x7d"
  return vectorOfList first more

/-- The value of a named parameter.  A scalar stands for all four components. -/
def constant : Scan Vec4 := do
  if ← accept "\x7b" then
    within .vectorConstant vectorRest
  else
    let value ← within .scalarConstant number
    return Quad.replicate value

/-! ## Components and conditions -/

/-- The letters of a swizzle after its dot. -/
def swizzle : Scan Swizzle := do
  match ← token with
  | .identifier letters =>
    match Swizzle.ofName? letters with
    | some s => return s
    | none => fail .invalidSwizzle
  | _ => fail .invalidSwizzle

/-- The letters of a write mask after its dot. -/
def writeMask : Scan WriteMask := do
  match ← token with
  | .identifier letters =>
    match WriteMask.ofName? letters with
    | some mask => return mask
    | none => fail .invalidWriteMask
  | _ => fail .invalidWriteMask

def condition : Scan CondTest := do
  match ← token with
  | .identifier name =>
    match CondRule.ofName? name with
    | some rule =>
      if ← accept "." then
        return { rule, swizzle := ← swizzle }
      else
        return { rule }
    | none => fail .invalidCondition
  | _ => fail .invalidCondition

/-- A minus sign, or nothing or a plus sign. -/
def negation : Scan Bool := do
  if ← accept "-" then
    return true
  else
    let _ ← accept "+"
    return false

end Scan

namespace Compile

/-! ## Destinations -/

/-- The rest of an input after `f`. -/
def inputRegister : Compile InputIndex := do
  Scan.expect "["
  let name ← Scan.identifier
  match registerNamed? inputNames name with
  | none => Scan.fail .invalidInputRegister
  | some i =>
    Scan.expect "]"
    markInput i
    return i

/-- Whether both color results are among the outputs. -/
def writesBothColors (outputsWritten : Nat) : Bool :=
  outputsWritten.testBit OutputIndex.colr.val && outputsWritten.testBit OutputIndex.colh.val

/-- The rest of an output after `o`. -/
def outputRegister : Compile OutputIndex := do
  Scan.expect "["
  let name ← Scan.identifier
  match registerNamed? outputNames name with
  | none => Scan.fail .invalidOutputRegister
  | some i =>
    Scan.expect "]"
    markOutput i
    if writesBothColors (← get).outputsWritten then
      Scan.fail .conflictingColorOutputs
    else
      return i

def writable (name : String) : Compile Writable := do
  match ConditionRegister.ofName? name with
  | some register => return .conditionOnly register
  | none =>
    if name = "o" then
      return .output (← outputRegister)
    else
      match temporaryNumber? name with
      | some number => return .temporary (← Scan.temporary number)
      | none => Scan.fail .invalidDestination

/-- The write mask of a destination, which may be left out. -/
def destinationMask : Scan WriteMask := do
  if ← Scan.accept "." then Scan.writeMask else return Quad.replicate true

/-- The condition in parentheses behind a destination, which may be left out. -/
def destinationGuard : Scan CondTest := do
  if ← Scan.accept "(" then
    let test ← within .conditionCode Scan.condition
    Scan.expect ")"
    return test
  else
    return {}

def destination : Compile (Destination × CondTest) := do
  match ← Scan.token with
  | .identifier name =>
    let register ← writable name
    let mask ← destinationMask
    let guard ← destinationGuard
    return (⟨register, mask⟩, guard)
  | _ => Scan.fail .invalidDestination

/-! ## Sources -/

/-- A value that a source operand names: a register, or a constant of the parameter table. -/
inductive Operand where
  | register (r : Readable)
  | constant (index : Nat)

def Operand.readable : Operand → Readable
  | register r => r
  | constant index => .parameter index

def scalarLiteral : Compile Operand := do
  let value ← Scan.number
  let index ← addLiteral (Quad.replicate value)
  note (.scalarLiteral index value)
  return .constant index

/-- The rest of a vector literal after its opening brace. -/
def vectorLiteral : Compile Operand := do
  let value ← Scan.vectorRest
  let index ← addLiteral value
  note (.vectorLiteral index value)
  return .constant index

def namedOperand (name : String) : Compile Operand := do
  if (ConditionRegister.ofName? name).isSome then
    Scan.fail .invalidSource
  else if name = "f" then
    return .register (.input (← inputRegister))
  else if name = "p" then
    return .register (.localParameter (← Scan.localParameter))
  else
    match temporaryNumber? name with
    | some number => return .register (.temporary (← Scan.temporary number))
    | none =>
      match (← get).parameters.lookup? name with
      | some index => return .constant index
      | none => Scan.fail (.undefinedSymbol name)

/-- Whether a token begins a number, which may consist of several tokens. -/
def beginsNumber : Token → Bool
  | .integer _ => true
  | .punctuation mark => mark = '.'
  | .identifier _ => false

def operand : Compile Operand := do
  if (← Scan.peek?).any beginsNumber then
    scalarLiteral
  else
    match ← Scan.token with
    | .identifier name => namedOperand name
    | .punctuation '\x7b' => vectorLiteral
    | _ => Scan.fail .invalidSource

/-- A source operand with its signs and bars.  The sign in front of bars applies to the absolute
value and the one behind the first bar to the register; without bars there is one sign. -/
def sourceWith (suffix : Operand → Scan Swizzle) : Compile Source := do
  let outer ← Scan.negation
  let absolute ← Scan.accept "|"
  let inner ← if absolute then Scan.negation else pure outer
  let operand ← operand
  let swizzle ← suffix operand
  if absolute then
    Scan.expect "|"
  return {
    register := operand.readable
    swizzle
    negateBase := inner
    absolute
    negateAbsolute := absolute && outer }

def vectorSuffix (_ : Operand) : Scan Swizzle := do
  if ← Scan.accept "." then Scan.swizzle else return Swizzle.identity

/-- A scalar operand selects one component.  A constant may leave the suffix out. -/
def scalarSuffix (operand : Operand) : Scan Swizzle := do
  if ← Scan.accept "." then
    let s ← Scan.swizzle
    if s.all (· = s.x) then return s else Scan.fail .invalidSwizzle
  else
    match operand with
    | .constant _ => return Quad.replicate .x
    | .register _ => Scan.failAhead (.expected "scalar suffix")

def vectorSource : Compile Source :=
  within .vectorSource (sourceWith vectorSuffix)

def scalarSource : Compile Source :=
  within .scalarSource (sourceWith scalarSuffix)

/-! ## Texture images -/

/-- The first target of a list whose name comes next. -/
def targetAmong : List TextureTarget → Scan TextureTarget
  | [] => Scan.failAhead .invalidTextureTarget
  | target :: targets => do
    if ← Scan.acceptWord target.name then return target else targetAmong targets

def textureUnit : Scan TextureUnit := do
  match textureUnitNumber? (← Scan.identifier) with
  | none => Scan.fail (.expected "texture image unit")
  | some number =>
    if h : number < textureUnitCount then return ⟨number, h⟩ else Scan.fail .invalidTextureUnit

/-- Enters the target of a unit, which must not have another one. -/
def useTexture (image : TextureImage) : Compile Unit := do
  let d ← get
  match d.textures.get image.unit with
  | some used =>
    if used ≠ image.target then
      Scan.fail (.textureTargetConflict image.unit.val)
  | none =>
    let textures := d.textures.set image.unit.val (some image.target) image.unit.isLt
    set { d with textures }

def textureImage : Compile TextureImage := do
  let unit ← textureUnit
  Scan.expect ","
  let target ← targetAmong TextureTarget.all
  let image : TextureImage := ⟨unit, target⟩
  useTexture image
  return image

end Compile

end FragmentAssembly
