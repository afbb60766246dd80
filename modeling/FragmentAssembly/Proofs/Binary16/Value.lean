import FragmentAssembly.Binary16
import FragmentAssembly.Proofs.Binary32.Value
import Mathlib.Data.Nat.Bitwise

/-!
# Values of halves

Fields, magnitudes and exact values of binary16 numbers.
-/

namespace FragmentAssembly.Binary16

/-! ## Single bits -/

theorem two_pow_or {place m : Nat} (hm : m < 2 ^ place) : 2 ^ place ||| m = 2 ^ place + m := by
  have hor := Nat.two_pow_add_eq_or_of_lt hm 1
  rw [Nat.mul_one] at hor
  exact hor.symm

/-- A sign bit stands in front of every magnitude. -/
theorem sign_or (negative : Bool) {place m : Nat} (hm : m < 2 ^ place) :
    (if negative then 2 ^ place else 0) ||| m = (if negative then 2 ^ place else 0) + m := by
  cases negative
  · rw [if_neg Bool.false_ne_true, Nat.zero_or, Nat.zero_add]
  · rw [if_pos rfl, two_pow_or hm]

theorem and_two_pow_eq (n place : Nat) :
    n &&& 2 ^ place = if n / 2 ^ place % 2 = 1 then 2 ^ place else 0 := by
  rw [Nat.and_two_pow, Nat.testBit_eq_decide_div_mod_eq]
  by_cases hbit : n / 2 ^ place % 2 = 1
  · rw [decide_eq_true hbit, if_pos hbit, Bool.toNat_true, Nat.one_mul]
  · rw [decide_eq_false hbit, if_neg hbit, Bool.toNat_false, Nat.zero_mul]

/-- A bit is set that was not. -/
theorem or_two_pow_eq {n place : Nat} (h : n / 2 ^ place % 2 = 0) :
    n ||| 2 ^ place = n + 2 ^ place := by
  have hlow : n % 2 ^ place < 2 ^ place := Nat.mod_lt _ (Nat.two_pow_pos place)
  have hhigh : n = 2 ^ (place + 1) * (n / 2 ^ (place + 1)) + n % 2 ^ place := by
    have hsplit := Nat.div_add_mod n (2 ^ (place + 1))
    rw [Nat.pow_succ, Nat.mod_mul, h, Nat.mul_zero, Nat.add_zero] at hsplit
    rw [Nat.pow_succ]
    exact hsplit.symm
  generalize n / 2 ^ (place + 1) = q at hhigh
  generalize n % 2 ^ place = r at hhigh hlow
  have hnext : 2 ^ place + r < 2 ^ (place + 1) := by
    rw [Nat.pow_succ]
    omega
  have hrest : r < 2 ^ (place + 1) := by omega
  rw [hhigh, Nat.two_pow_add_eq_or_of_lt hrest, Nat.or_assoc, Nat.or_comm r, two_pow_or hlow,
    ← Nat.two_pow_add_eq_or_of_lt hnext, ← Nat.two_pow_add_eq_or_of_lt hrest]
  omega

/-! ## Fields -/

variable (h : Binary16)

theorem exponent_eq : h.exponent = h.bits.toNat / 0x400 % 0x20 := by
  rw [exponent, Nat.shiftRight_eq_div_pow]
  exact Nat.and_two_pow_sub_one_eq_mod _ 5

theorem mantissa_eq : h.mantissa = h.bits.toNat % 0x400 :=
  Nat.and_two_pow_sub_one_eq_mod _ 10

theorem exponent_lt : h.exponent < 0x20 := by
  rw [exponent_eq]
  exact Nat.mod_lt _ (by decide)

theorem mantissa_lt : h.mantissa < 0x400 := by
  rw [mantissa_eq]
  exact Nat.mod_lt _ (by decide)

/-- The bits without the sign. -/
def magnitude : Nat :=
  h.exponent * 0x400 + h.mantissa

theorem toNat_bits : h.bits.toNat = (if h.isNegative then 0x8000 else 0) + h.magnitude := by
  have hbits := h.bits.toNat_lt
  rw [magnitude, exponent_eq, mantissa_eq, isNegative]
  by_cases hsign : 0x8000 ≤ h.bits.toNat
  · rw [decide_eq_true hsign, if_pos rfl]
    omega
  · rw [decide_eq_false hsign, if_neg Bool.false_ne_true]
    omega

theorem magnitude_mod_two : h.magnitude % 2 = h.mantissa % 2 := by
  rw [magnitude]
  omega

variable {h} in
theorem ext_view {g : Binary16} (hsign : h.isNegative = g.isNegative)
    (hmagnitude : h.magnitude = g.magnitude) : h = g := by
  have hbits : h.bits.toNat = g.bits.toNat := by rw [toNat_bits, toNat_bits, hsign, hmagnitude]
  cases h
  cases g
  exact congrArg Binary16.mk (UInt16.toNat_inj.mp hbits)

/-- A half with the given sign and magnitude. -/
theorem view_ofBits (negative : Bool) {m : Nat} (hm : m < 0x8000) :
    let g : Binary16 := ⟨UInt16.ofNat ((if negative then 0x8000 else 0) + m)⟩
    g.isNegative = negative ∧ g.magnitude = m ∧ g.exponent = m / 0x400 ∧
      g.mantissa = m % 0x400 := by
  dsimp only
  have hbits : (UInt16.ofNat ((if negative then 0x8000 else 0) + m)).toNat =
      (if negative then 0x8000 else 0) + m := by
    rw [UInt16.toNat_ofNat']
    split <;> omega
  rw [magnitude, exponent_eq, mantissa_eq, isNegative, hbits]
  cases negative
  · rw [if_neg Bool.false_ne_true]
    exact ⟨decide_eq_false (by omega), by omega, by omega, by omega⟩
  · rw [if_pos rfl]
    exact ⟨decide_eq_true (by omega), by omega, by omega, by omega⟩

/-! ## Kinds -/

def isFinite : Bool :=
  h.exponent < 0x1f

def isInfinite : Bool :=
  h.exponent = 0x1f && h.mantissa = 0

def isNaN : Bool :=
  h.exponent = 0x1f && h.mantissa ≠ 0

/-- A NaN with a clear quiet bit. -/
def isSignalling : Bool :=
  h.isNaN && h.mantissa < 0x200

/-- Every half has an exponent below the last one, or it is an infinity or a NaN. -/
theorem isFinite_or : h.isFinite = true ∨ h.exponent = 0x1f := by
  have hexponent := h.exponent_lt
  rw [isFinite, decide_eq_true_eq]
  omega

variable {h} in
theorem not_isFinite (hexponent : h.exponent = 0x1f) : ¬h.isFinite = true := by
  rw [isFinite, decide_eq_true_eq]
  omega

theorem isInfinite_iff : h.isInfinite = true ↔ h.exponent = 0x1f ∧ h.mantissa = 0 := by
  rw [isInfinite, Bool.and_eq_true, decide_eq_true_eq, decide_eq_true_eq]

theorem isNaN_iff : h.isNaN = true ↔ h.exponent = 0x1f ∧ h.mantissa ≠ 0 := by
  rw [isNaN, Bool.and_eq_true, decide_eq_true_eq, decide_eq_true_eq]

/-! ## Values -/

/-- The value of a finite magnitude in units of `2 ^ (-24)`, the least positive half. -/
def units (m : Nat) : Nat :=
  if m < 0x800 then m else (0x400 + m % 0x400) <<< (m / 0x400 - 1)

theorem hasPrecision_units : HasPrecision 10 units :=
  hasPrecision 10

/-- The exact value of a finite half. -/
def value : ℚ :=
  fieldValue 10 15 h.isNegative h.exponent h.mantissa

def signedUnits : Int :=
  if h.isNegative then -(units h.magnitude : Int) else units h.magnitude

/-- Every half is a multiple of the least positive number of the greater format. -/
theorem value_eq : h.value = (h.signedUnits * 2 ^ 125 : Int) * 2 ^ (-149 : ℤ) := by
  have hmagnitude : h.exponent * 2 ^ 10 + h.mantissa = h.magnitude := rfl
  have hunit : (2 : ℚ) ^ (1 - (15 : Nat) - (10 : Nat) : ℤ) = 2 ^ 125 * 2 ^ (-149 : ℤ) := by
    norm_num
  rw [value, fieldValue_eq hasPrecision_units 15 _ h.mantissa_lt, hmagnitude, hunit, signedUnits]
  cases h.isNegative
  · rw [if_neg Bool.false_ne_true, if_neg Bool.false_ne_true]
    push_cast
    ring
  · rw [if_pos rfl, if_pos rfl]
    push_cast
    ring

/-! ## Distances -/

/-- The distance of a half to a number, in units of `2 ^ (-149)`. -/
def distance (a : Binary32) : Nat :=
  (h.signedUnits * 2 ^ 125 - a.signedUnits).natAbs

theorem abs_value_sub (a : Binary32) :
    |h.value - a.value| = h.distance a * 2 ^ (-149 : ℤ) := by
  have hunit : (0 : ℚ) < 2 ^ (-149 : ℤ) := by positivity
  rw [value_eq, Binary32.value_eq, ← sub_mul, abs_mul, abs_of_pos hunit, distance,
    Nat.cast_natAbs, ← Int.cast_sub, ← Int.cast_abs]

theorem abs_value_sub_le_iff (g : Binary16) (a : Binary32) :
    |h.value - a.value| ≤ |g.value - a.value| ↔ h.distance a ≤ g.distance a := by
  have hunit : (0 : ℚ) < 2 ^ (-149 : ℤ) := by positivity
  rw [abs_value_sub, abs_value_sub, mul_le_mul_iff_of_pos_right hunit, Nat.cast_le]

theorem abs_value_sub_eq_iff (g : Binary16) (a : Binary32) :
    |h.value - a.value| = |g.value - a.value| ↔ h.distance a = g.distance a := by
  simp only [le_antisymm_iff, abs_value_sub_le_iff]

variable {h}

theorem distance_of_sign_eq {a : Binary32} (hsign : h.isNegative = a.isNegative) :
    h.distance a =
      ((units h.magnitude * 2 ^ 125 : Nat) - Binary32.units a.magnitude : Int).natAbs := by
  rw [distance, signedUnits, Binary32.signedUnits, hsign]
  cases a.isNegative <;> simp
  omega

theorem distance_of_sign_ne {a : Binary32} (hsign : h.isNegative ≠ a.isNegative) :
    h.distance a = units h.magnitude * 2 ^ 125 + Binary32.units a.magnitude := by
  rw [distance, signedUnits, Binary32.signedUnits]
  cases hh : h.isNegative <;> cases ha : a.isNegative <;> simp_all <;> omega

end FragmentAssembly.Binary16
