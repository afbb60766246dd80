import FragmentAssembly.Binary32.Rounding

/-!
# Arithmetic on binary32 numbers

Every operation takes the exact result of its finite operands and rounds it once.  A result that
is not a number is the quiet NaN `Binary32.nan`.
-/

namespace FragmentAssembly.Binary32

def add (a b : Binary32) : Binary32 :=
  if a.isNaN || b.isNaN then nan
  else if a.isInfinite then
    if b.isInfinite && a.isNegative != b.isNegative then nan else a
  else if b.isInfinite then b
  else
    let sum := a.signedUnits + b.signedUnits
    if sum = 0 then ofMagnitude (a.isNegative && b.isNegative) 0
    else ofRatio (sum < 0) sum.natAbs 1

def sub (a b : Binary32) : Binary32 :=
  add a b.neg

def mul (a b : Binary32) : Binary32 :=
  let negative := a.isNegative != b.isNegative
  if a.isNaN || b.isNaN then nan
  else if a.isInfinite || b.isInfinite then
    if a.isZero || b.isZero then nan else infinity negative
  else ofRatio negative (units a.magnitude * units b.magnitude) (1 <<< 149)

def div (a b : Binary32) : Binary32 :=
  let negative := a.isNegative != b.isNegative
  if a.isNaN || b.isNaN then nan
  else if a.isInfinite then
    if b.isInfinite then nan else infinity negative
  else if b.isInfinite then ofMagnitude negative 0
  else if b.isZero then
    if a.isZero then nan else infinity negative
  else ofRatio negative (units a.magnitude <<< 149) (units b.magnitude)

def reciprocal (a : Binary32) : Binary32 :=
  div one a

/-! ## Square root

The root is taken bit by bit from the top, so that after step `k` the accumulator holds the
greatest multiple of `2 ^ k` whose square is at most `n`. -/

def rootFrom (n : Nat) : Nat → Nat → Nat
  | 0, root => root
  | k + 1, root =>
    let next := root + (1 <<< k)
    rootFrom n k (if next * next ≤ n then next else root)

def integerRoot (n : Nat) : Nat :=
  rootFrom n (Nat.log2 n / 2 + 1) 0

/-- The root of `u` units has `sqrt (u * 2 ^ 149)` units.  Its integer part has at least 74 bits,
so one more bit that tells whether anything is missing decides the rounding. -/
def sqrt (a : Binary32) : Binary32 :=
  if a.isNaN then nan
  else if a.isZero then a
  else if a.isNegative then nan
  else if a.isInfinite then a
  else
    let square := units a.magnitude <<< 149
    let root := integerRoot square
    ofRatio false (2 * root + if root * root = square then 0 else 1) 2

/-! ## Integers -/

/-- The greatest integer that is at most `a`; infinities and NaNs are kept, and so is the sign of
a zero. -/
def floor (a : Binary32) : Binary32 :=
  if a.isFinite then
    let u := units a.magnitude
    let whole := if a.isNegative then (u + ((1 <<< 149) - 1)) >>> 149 else u >>> 149
    ofRatio a.isNegative (whole <<< 149) 1
  else a

/-- The integer nearest to `a`, away from zero if there are two, as a count; a number below zero
counts as zero, and `limit` is the greatest count. -/
def roundToNat (limit : Nat) (a : Binary32) : Nat :=
  if a.isNaN || a.isNegative then 0
  else if a.isInfinite then limit
  else Min.min limit ((2 * units a.magnitude + (1 <<< 149)) >>> 150)

/-- The fractional part, `a - floor a`. -/
def fraction (a : Binary32) : Binary32 :=
  sub a a.floor

/-- Clamps to the range from zero to one and keeps a NaN. -/
def saturate (a : Binary32) : Binary32 :=
  if lt a zero then zero else if lt one a then one else a

end FragmentAssembly.Binary32
