import FragmentAssembly.Quad

/-!
# Registers and operands

The registers that an instruction can read and those that it can write, and how they are spelled
in program text.  The temporaries `R0`, `R1`, … and `H0`, `H1`, … are one bank, in which `H0` is
number 32.
-/

namespace FragmentAssembly

abbrev temporaryCount : Nat := 96

/-- The number of the temporary `H0`. -/
abbrev halfTemporaryOffset : Nat := 32

abbrev inputCount : Nat := 12

abbrev outputCount : Nat := 3

abbrev localParameterCount : Nat := 64

-- The zero is the one that numerals of `Fin` refer to.
instance : @NeZero Nat Zero.ofOfNat0 temporaryCount := ⟨by decide⟩

instance : @NeZero Nat Zero.ofOfNat0 inputCount := ⟨by decide⟩

abbrev TemporaryIndex := Fin temporaryCount

abbrev InputIndex := Fin inputCount

abbrev OutputIndex := Fin outputCount

abbrev LocalParameterIndex := Fin localParameterCount

def inputNames : Vector String inputCount :=
  #v["WPOS", "COL0", "COL1", "FOGC",
     "TEX0", "TEX1", "TEX2", "TEX3", "TEX4", "TEX5", "TEX6", "TEX7"]

def outputNames : Vector String outputCount :=
  #v["COLR", "COLH", "DEPR"]

/-- The register that `names` gives a name to. -/
def registerNamed? {n : Nat} (names : Vector String n) (name : String) : Option (Fin n) :=
  (List.finRange n).find? fun i => names.get i = name

namespace OutputIndex

/-- The color result in full precision. -/
def colr : OutputIndex := ⟨0, by decide⟩

/-- The color result in half precision. -/
def colh : OutputIndex := ⟨1, by decide⟩

/-- The depth result. -/
def depr : OutputIndex := ⟨2, by decide⟩

end OutputIndex

/-- Whether an input holds texture coordinates. -/
def InputIndex.isTextureCoordinate (i : InputIndex) : Bool :=
  4 ≤ i.val

/-- Registers that a source operand can name. -/
inductive Readable where
  | temporary (index : TemporaryIndex)
  | input (index : InputIndex)
  | localParameter (index : LocalParameterIndex)
  /-- An entry of the parameter table. -/
  | parameter (index : Nat)
deriving DecidableEq, Repr

/-- The registers that keep nothing but the condition codes of what is written to them. -/
inductive ConditionRegister where
  | rc
  | hc
deriving DecidableEq, Repr, Inhabited

namespace ConditionRegister

def name : ConditionRegister → String
  | rc => "RC"
  | hc => "HC"

def ofName? (name : String) : Option ConditionRegister :=
  [rc, hc].find? (·.name = name)

end ConditionRegister

/-- Registers that a destination operand can name. -/
inductive Writable where
  | temporary (index : TemporaryIndex)
  | output (index : OutputIndex)
  | conditionOnly (register : ConditionRegister)
deriving DecidableEq, Repr

def TemporaryIndex.text (i : TemporaryIndex) : String :=
  if halfTemporaryOffset ≤ i.val then "H" ++ toString (i.val - halfTemporaryOffset)
  else "R" ++ toString i.val

def Writable.text : Writable → String
  | temporary i => TemporaryIndex.text i
  | output i => "o[" ++ outputNames.get i ++ "]"
  | conditionOnly r => r.name

/-- The letters after the dot; nothing is written for the identity, and one letter for a swizzle
that repeats it. -/
def Swizzle.suffix (s : Swizzle) : String :=
  if s = Swizzle.identity then ""
  else if s.all (· = s.x) then "." ++ String.singleton s.x.letter
  else "." ++ String.ofList (s.toList.map Component.letter)

/-- The letters after the dot; nothing is written for a mask that allows every component. -/
def WriteMask.suffix (mask : WriteMask) : String :=
  if mask.all id then ""
  else
    "." ++ String.ofList ((Swizzle.identity.toList.filter mask.get).map Component.letter)

/-- A source operand.  The value of the register is swizzled, negated if `negateBase`, made
positive if `absolute`, and negated again if `negateAbsolute`. -/
structure Source where
  register : Readable
  swizzle : Swizzle := Swizzle.identity
  negateBase : Bool := false
  absolute : Bool := false
  negateAbsolute : Bool := false
deriving DecidableEq, Repr

structure Destination where
  register : Writable
  mask : WriteMask := Quad.replicate true
deriving DecidableEq, Repr

def Destination.text (d : Destination) : String :=
  d.register.text ++ WriteMask.suffix d.mask

end FragmentAssembly
