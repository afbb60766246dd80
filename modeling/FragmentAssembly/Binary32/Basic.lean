import FragmentAssembly.Quad

/-!
# Binary32 numbers

A number is its 32 bits, so that moves keep every pattern, NaN payloads included.  Arithmetic
works on the view `isNegative`, `magnitude`: the sign bit, and the other 31 bits as a natural
number.  Magnitudes of finite numbers are ordered like their values, and `units` gives the value
of a magnitude as a multiple of `2 ^ (-149)`, the least positive number.
-/

namespace FragmentAssembly

structure Binary32 where
  bits : UInt32
deriving DecidableEq, Repr, Inhabited

namespace Binary32

def isNegative (a : Binary32) : Bool :=
  0x80000000 ≤ a.bits.toNat

def magnitude (a : Binary32) : Nat :=
  a.bits.toNat % 0x80000000

/-- The exponent field. -/
def exponent (a : Binary32) : Nat :=
  (a.bits.toNat >>> 23) &&& 0xff

/-- The mantissa field, the bits behind the leading one. -/
def mantissa (a : Binary32) : Nat :=
  a.bits.toNat &&& 0x7fffff

def ofMagnitude (negative : Bool) (magnitude : Nat) : Binary32 :=
  ⟨UInt32.ofNat ((if negative then 0x80000000 else 0) + magnitude % 0x80000000)⟩

/-- The magnitude of infinity; greater magnitudes are those of NaNs. -/
def infinityMagnitude : Nat :=
  0x7f800000

def zero : Binary32 :=
  ⟨0⟩

def one : Binary32 :=
  ⟨0x3f800000⟩

def nan : Binary32 :=
  ⟨0x7fc00000⟩

def infinity (negative : Bool) : Binary32 :=
  ofMagnitude negative infinityMagnitude

def isNaN (a : Binary32) : Bool :=
  infinityMagnitude < a.magnitude

def isInfinite (a : Binary32) : Bool :=
  a.magnitude = infinityMagnitude

def isFinite (a : Binary32) : Bool :=
  a.magnitude < infinityMagnitude

def isZero (a : Binary32) : Bool :=
  a.magnitude = 0

/-- Flips the sign bit, also of a NaN. -/
def neg (a : Binary32) : Binary32 :=
  ofMagnitude (!a.isNegative) a.magnitude

/-- Clears the sign bit, also of a NaN. -/
def abs (a : Binary32) : Binary32 :=
  ofMagnitude false a.magnitude

/-- The value of a finite magnitude in units of `2 ^ (-149)`. -/
def units (magnitude : Nat) : Nat :=
  if magnitude < 0x1000000 then magnitude
  else (0x800000 + magnitude % 0x800000) <<< (magnitude / 0x800000 - 1)

def signedUnits (a : Binary32) : Int :=
  if a.isNegative then -(units a.magnitude : Int) else units a.magnitude

/-! ## Order

Both zeros are equal, and no comparison with a NaN holds. -/

def orderKey (a : Binary32) : Int :=
  if a.isNegative then -(a.magnitude : Int) else a.magnitude

def eq (a b : Binary32) : Bool :=
  !a.isNaN && !b.isNaN && a.orderKey == b.orderKey

def lt (a b : Binary32) : Bool :=
  !a.isNaN && !b.isNaN && decide (a.orderKey < b.orderKey)

def le (a b : Binary32) : Bool :=
  !a.isNaN && !b.isNaN && decide (a.orderKey ≤ b.orderKey)

/-- The greater operand; the other one if an operand is NaN, and `b` if they are equal. -/
def max (a b : Binary32) : Binary32 :=
  if a.isNaN then b else if b.isNaN || lt b a then a else b

/-- The lesser operand; the other one if an operand is NaN, and `b` if they are equal. -/
def min (a b : Binary32) : Binary32 :=
  if a.isNaN then b else if b.isNaN || lt a b then a else b

def clamp (a lower upper : Binary32) : Binary32 :=
  min (max a lower) upper

/-! ## The view determines the number -/

theorem toNat_bits (a : Binary32) :
    a.bits.toNat = (if a.isNegative then 0x80000000 else 0) + a.magnitude := by
  have h := a.bits.toNat_lt
  unfold isNegative magnitude
  by_cases hs : 0x80000000 ≤ a.bits.toNat
  · rw [decide_eq_true hs, if_pos rfl]
    omega
  · rw [decide_eq_false hs, if_neg Bool.false_ne_true]
    omega

theorem magnitude_lt (a : Binary32) : a.magnitude < 0x80000000 :=
  Nat.mod_lt _ (by decide)

theorem toNat_bits_ofMagnitude (negative : Bool) (m : Nat) :
    (ofMagnitude negative m).bits.toNat =
      (if negative then 0x80000000 else 0) + m % 0x80000000 := by
  have h : m % 0x80000000 < 0x80000000 := Nat.mod_lt _ (by decide)
  unfold ofMagnitude
  rw [UInt32.toNat_ofNat']
  cases negative
  · rw [if_neg Bool.false_ne_true]
    omega
  · rw [if_pos rfl]
    omega

@[simp] theorem isNegative_ofMagnitude (negative : Bool) (m : Nat) :
    (ofMagnitude negative m).isNegative = negative := by
  have h : m % 0x80000000 < 0x80000000 := Nat.mod_lt _ (by decide)
  unfold isNegative
  rw [toNat_bits_ofMagnitude]
  cases negative
  · rw [if_neg Bool.false_ne_true]
    exact decide_eq_false (by omega)
  · rw [if_pos rfl]
    exact decide_eq_true (by omega)

@[simp] theorem magnitude_ofMagnitude (negative : Bool) (m : Nat) :
    (ofMagnitude negative m).magnitude = m % 0x80000000 := by
  unfold magnitude
  rw [toNat_bits_ofMagnitude]
  cases negative
  · rw [if_neg Bool.false_ne_true]
    omega
  · rw [if_pos rfl]
    omega

theorem ext_view {a b : Binary32} (hs : a.isNegative = b.isNegative)
    (hm : a.magnitude = b.magnitude) : a = b := by
  have h : a.bits.toNat = b.bits.toNat := by rw [toNat_bits, toNat_bits, hs, hm]
  cases a
  cases b
  exact congrArg Binary32.mk (UInt32.toNat_inj.mp h)

@[simp] theorem ofMagnitude_view (a : Binary32) : ofMagnitude a.isNegative a.magnitude = a := by
  apply ext_view
  · rw [isNegative_ofMagnitude]
  · rw [magnitude_ofMagnitude, Nat.mod_eq_of_lt a.magnitude_lt]

theorem isNegative_neg (a : Binary32) : a.neg.isNegative = !a.isNegative :=
  isNegative_ofMagnitude _ _

theorem magnitude_neg (a : Binary32) : a.neg.magnitude = a.magnitude := by
  rw [neg, magnitude_ofMagnitude, Nat.mod_eq_of_lt a.magnitude_lt]

end Binary32

/-- The value of a register. -/
abbrev Vec4 := Quad Binary32

end FragmentAssembly
