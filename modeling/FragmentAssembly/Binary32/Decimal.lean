import FragmentAssembly.Binary32.Rounding
import FragmentAssembly.Text.Numeral

/-!
# Decimal numbers and binary32 numbers

`Binary32.ofDecimal` is the nearest number to a decimal.  `Binary32.shortest` goes back: it has
the fewest digits that read as the number, and among those it is the nearest.
-/

namespace FragmentAssembly.Binary32

/-- The nearest number.  Decimals of at least `10 ^ 60` are infinite and those below `10 ^ (-60)`
are zero, so no greater power of ten is ever needed. -/
def ofDecimal (d : Decimal) : Binary32 :=
  if d.digits = 0 then ofMagnitude d.negative 0
  else if 60 ≤ d.exponent then infinity d.negative
  else if d.exponent + (Nat.log2 d.digits + 1) ≤ -60 then ofMagnitude d.negative 0
  else
    ofRatio d.negative ((d.digits * Nat.pow 10 d.exponent.toNat) <<< 149)
      (Nat.pow 10 (-d.exponent).toNat)

/-- The number that a numeral denotes. -/
def ofNumeral (n : Numeral) : Binary32 :=
  ofDecimal n.value

/-! ## The shortest decimal -/

/-- The least `p` with `value < 10 ^ p`, for the value of a finite magnitude. -/
def decimalPoint (magnitude : Nat) : Int :=
  let isAbove (i : Nat) : Bool := units magnitude * Nat.pow 10 44 < (Nat.pow 10 i) <<< 149
  ((List.range 84).find? isAbove).getD 84 - 44

/-- The multiple of `10 ^ exponent` that is nearest to the value of `magnitude`, the greater one
of two, among those that round to `magnitude`.

Everything is counted in halves of the least positive number.  The decimals that round to
`magnitude` lie between the midpoints to its two neighbours, and the midpoints themselves belong
to it exactly if it is even. -/
def nearestMultiple? (magnitude : Nat) (exponent : Int) : Option Nat :=
  let up := Nat.pow 10 (-exponent).toNat
  let step := (Nat.pow 10 exponent.toNat) <<< 150
  let value := 2 * units magnitude * up
  let lower := (units (magnitude - 1) + units magnitude) * up
  let upper := (units magnitude + units (magnitude + 1)) * up
  let inside (k : Nat) : Bool :=
    if magnitude % 2 = 0 then lower ≤ k * step && k * step ≤ upper
    else lower < k * step && k * step < upper
  let below := value / step
  let nearerBelow := 2 * (value % step) < step
  if inside below && (nearerBelow || !inside (below + 1)) then some below
  else if inside (below + 1) then some (below + 1)
  else none

/-- Moves the zeros at the end of `digits` into the exponent, at most `fuel` of them. -/
def dropZeros : Nat → Nat → Int → Nat × Int
  | 0, digits, exponent => (digits, exponent)
  | fuel + 1, digits, exponent =>
    if digits % 10 = 0 then dropZeros fuel (digits / 10) (exponent + 1) else (digits, exponent)

/-- The shortest decimal of a finite number.  Nine digits always suffice. -/
def shortest (a : Binary32) : Decimal :=
  if a.isZero then ⟨a.isNegative, 0, 0⟩
  else
    let point := decimalPoint a.magnitude
    let found := (List.range' 1 9).findSome? fun (count : Nat) =>
      (nearestMultiple? a.magnitude (point - count)).map fun digits => (digits, point - count)
    let (digits, exponent) := found.getD ((units a.magnitude * Nat.pow 10 149) >>> 149, -149)
    let (digits, exponent) := dropZeros 9 digits exponent
    ⟨a.isNegative, digits, exponent⟩

end FragmentAssembly.Binary32
