import FragmentAssembly.Binary32.Basic

/-!
# Rounding to the nearest number

A binary format keeps `p` bits after the leading one.  Its magnitudes, counted from zero, first
run through the multiples of the least positive number; from magnitude `2 ^ (p + 1)` on the step
doubles every `2 ^ p` magnitudes.  So the nearest magnitude of a quotient is found by dropping
`s` bits, rounding to an integer, and adding `s * 2 ^ p`: a carry out of the kept bits moves to
the next step by itself.
-/

namespace FragmentAssembly

/-- The integer nearest to `n / d`, the even one of two. -/
def roundDivEven (n d : Nat) : Nat :=
  if 2 * (n % d) < d then n / d
  else if d < 2 * (n % d) then n / d + 1
  else n / d + n / d % 2

/-- The magnitude nearest to `n / d` in units of the least positive number, where `limit` is the
magnitude of infinity. -/
def nearestMagnitude (p limit n d : Nat) : Nat :=
  let dropped := Nat.log2 (n / d) - p
  min ((dropped <<< p) + roundDivEven n (d <<< dropped)) limit

theorem nearestMagnitude_le (p limit n d : Nat) : nearestMagnitude p limit n d ≤ limit :=
  Nat.min_le_right _ _

namespace Binary32

/-- The number nearest to `n / d` units of `2 ^ (-149)`, with the given sign. -/
def ofRatio (negative : Bool) (n d : Nat) : Binary32 :=
  ofMagnitude negative (nearestMagnitude 23 infinityMagnitude n d)

def ofNat (n : Nat) : Binary32 :=
  ofRatio false (n <<< 149) 1

end Binary32

end FragmentAssembly
