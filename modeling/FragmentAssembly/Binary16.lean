import FragmentAssembly.Binary32.Basic
import FragmentAssembly.Word

/-!
# Binary16 numbers

The half precision format, as the bits that packing instructions store.  Conversion to it rounds
to the nearest half, the even one of two; conversion from it is exact.  Both work on the fields of
the numbers, in words of at most 32 bits.
-/

namespace FragmentAssembly

structure Binary16 where
  bits : UInt16
deriving DecidableEq, Repr, Inhabited

namespace Binary16

def isNegative (h : Binary16) : Bool :=
  0x8000 ≤ h.bits.toNat

/-- The exponent field. -/
def exponent (h : Binary16) : Nat :=
  (h.bits.toNat >>> 10) &&& 0x1f

/-- The mantissa field, the bits behind the leading one. -/
def mantissa (h : Binary16) : Nat :=
  h.bits.toNat &&& 0x3ff

/-! ## Rounding to a half -/

/-- The quotient that a shift has left, or the next one if what was shifted out is more than half a
place, or half a place and the quotient odd. -/
def roundPlace? (quotient rest half : Nat) : Option Nat :=
  if half < rest ∨ rest = half ∧ quotient &&& 1 ≠ 0 then Word.add? 32 quotient 1
  else some quotient

/-- The significand is shifted until its last place is that of the subnormal halves. -/
def roundSubnormal? (exponent : Int) (mantissa : Nat) : Option Nat := do
  let places ← Word.ofSigned? 32 (← Word.fitSigned? 32 (14 - exponent))
  let significand := mantissa ||| 0x800000
  let half ← Word.shiftLeft? 32 1 (← Word.sub? places 1)
  let rest := significand &&& (← Word.sub? (← Word.shiftLeft? 32 1 places) 1)
  roundPlace? (← Word.shiftRight? 32 significand places) rest half

/-- A carry out of the mantissa moves the exponent up, in the end to that of infinity. -/
def roundNormal? (exponent : Int) (mantissa : Nat) : Option Nat := do
  let top ← Word.shiftLeft? 32 (← Word.ofSigned? 32 exponent) 10
  roundPlace? (top ||| mantissa >>> 13) (mantissa &&& 0x1fff) 0x1000

/-- The bits of a half without its sign.  A NaN keeps the top bits of its payload and becomes
quiet. -/
def roundMagnitude? (exponent mantissa : Nat) : Option Nat :=
  if exponent = 0xff then
    some (if mantissa = 0 then 0x7c00 else 0x7e00 ||| mantissa >>> 13)
  else do
    let exponent ← Word.fitSigned? 32 ((← Word.fitSigned? 32 (exponent - 127)) + 15)
    if 0x1f ≤ exponent then return 0x7c00
    else if exponent ≤ 0 then
      if exponent < -10 then return 0 else roundSubnormal? exponent mantissa
    else roundNormal? exponent mantissa

/-- The nearest half, if no step on the way to it leaves its word. -/
def ofBinary32? (a : Binary32) : Option Binary16 := do
  let sign := (a.bits.toNat >>> 16) &&& 0x8000
  let magnitude ← Word.fit? 16 (← roundMagnitude? a.exponent a.mantissa)
  return ⟨UInt16.ofNat (sign ||| magnitude)⟩

/-- No step leaves its word, so that the number in case of one does not matter. -/
def ofBinary32 (a : Binary32) : Binary16 :=
  (ofBinary32? a).getD ⟨0⟩

/-! ## Widening a half -/

/-- Shifts a mantissa until its leading one is where the mantissa field ends, and takes one off the
exponent for each place. -/
def normalize? : Nat → Nat → Option (Nat × Nat)
  | exponent, mantissa =>
    if mantissa &&& 0x400 = 0 then
      match exponent with
      | 0 => none
      | exponent + 1 => do normalize? exponent (← Word.shiftLeft? 32 mantissa 1)
    else some (exponent, mantissa)

/-- The bits of a number with the given fields, without its sign. -/
def joinFields? (exponent mantissa : Nat) : Option Nat := do
  return (← Word.shiftLeft? 32 exponent 23) ||| (← Word.shiftLeft? 32 mantissa 13)

/-- The bits of a number without its sign, from the fields of a half.  A NaN keeps its payload. -/
def widenMagnitude? (exponent mantissa : Nat) : Option Nat :=
  if exponent = 0 then
    if mantissa = 0 then some 0
    else do
      let (exponent, mantissa) ← normalize? 113 mantissa
      joinFields? exponent (mantissa &&& 0x3ff)
  else if exponent = 0x1f then
    return 0x7f800000 ||| (← Word.shiftLeft? 32 mantissa 13)
  else do
    joinFields? (← Word.sub? (← Word.add? 32 exponent 127) 15) mantissa

/-- The number with the value of a half, if no step on the way to it leaves its word. -/
def toBinary32? (h : Binary16) : Option Binary32 := do
  let sign ← Word.shiftLeft? 32 (h.bits.toNat &&& 0x8000) 16
  return ⟨UInt32.ofNat (sign ||| (← widenMagnitude? h.exponent h.mantissa))⟩

/-- No step leaves its word, so that the number in case of one does not matter. -/
def toBinary32 (h : Binary16) : Binary32 :=
  (toBinary32? h).getD .zero

end Binary16

end FragmentAssembly
