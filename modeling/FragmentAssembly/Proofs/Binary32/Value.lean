import FragmentAssembly.Proofs.Rounding
import Mathlib.Algebra.Order.Ring.Abs
import Mathlib.Algebra.Field.Rat
import Mathlib.Tactic.FieldSimp
import Mathlib.Tactic.NormNum

/-!
# Values of binary numbers

The exact value of a finite number, from its sign, its exponent and its mantissa.  A magnitude is
both fields in a row, so its value in units of the least positive number is the same.
-/

namespace FragmentAssembly

/-- The exact value of a finite number with the given fields.  The exponent is biased, and the `p`
bits of the mantissa stand behind a leading one, or behind a zero if the exponent is the least. -/
def fieldValue (p bias : Nat) (negative : Bool) (exponent mantissa : Nat) : ℚ :=
  (if negative then -1 else 1) *
    if exponent = 0 then (mantissa : ℚ) / 2 ^ p * 2 ^ (1 - bias : ℤ)
    else (1 + (mantissa : ℚ) / 2 ^ p) * 2 ^ (exponent - bias : ℤ)

/-- The magnitude is counted in units of the least positive number. -/
theorem fieldValue_eq {p : Nat} {units : Nat → Nat} (h : HasPrecision p units) (bias : Nat)
    (negative : Bool) {exponent mantissa : Nat} (hmantissa : mantissa < 2 ^ p) :
    fieldValue p bias negative exponent mantissa =
      (if negative then -1 else 1) *
        (units (exponent * 2 ^ p + mantissa) * 2 ^ (1 - bias - p : ℤ)) := by
  unfold fieldValue
  congr 1
  have htwo : (2 : ℚ) ≠ 0 := two_ne_zero
  cases exponent with
  | zero =>
    have hvalue := h 0 mantissa (by omega) (.inl rfl)
    rw [if_pos rfl, hvalue, zpow_sub₀ htwo (1 - bias) p, zpow_natCast]
    push_cast
    ring
  | succ s =>
    have hsplit : (s + 1) * 2 ^ p + mantissa = s * 2 ^ p + (2 ^ p + mantissa) := by ring
    have hvalue := h s (2 ^ p + mantissa) (by omega) (.inr (Nat.le_add_right _ _))
    have hexponent : ((s + 1 : Nat) - bias : ℤ) = s + (1 - bias) := by
      push_cast
      ring
    rw [if_neg (Nat.succ_ne_zero s), hsplit, hvalue, hexponent, zpow_add₀ htwo,
      zpow_sub₀ htwo (1 - bias) p, zpow_natCast, zpow_natCast]
    push_cast
    field_simp

namespace Binary32

theorem hasPrecision_units : HasPrecision 23 units :=
  hasPrecision 23

theorem strictMono_units : StrictMono units :=
  hasPrecision_units.strictMono

/-! ## Fields -/

variable (a : Binary32)

theorem exponent_eq : a.exponent = a.bits.toNat / 0x800000 % 0x100 := by
  rw [exponent, Nat.shiftRight_eq_div_pow]
  exact Nat.and_two_pow_sub_one_eq_mod _ 8

theorem mantissa_eq : a.mantissa = a.bits.toNat % 0x800000 :=
  Nat.and_two_pow_sub_one_eq_mod _ 23

theorem exponent_lt : a.exponent < 0x100 := by
  rw [exponent_eq]
  exact Nat.mod_lt _ (by decide)

theorem mantissa_lt : a.mantissa < 0x800000 := by
  rw [mantissa_eq]
  exact Nat.mod_lt _ (by decide)

theorem magnitude_eq : a.magnitude = a.exponent * 0x800000 + a.mantissa := by
  rw [magnitude, exponent_eq, mantissa_eq]
  omega

theorem isFinite_iff : a.isFinite = true ↔ a.exponent < 0xff := by
  have hexponent := a.exponent_lt
  have hmantissa := a.mantissa_lt
  rw [isFinite, decide_eq_true_eq, magnitude_eq, infinityMagnitude]
  omega

variable {a} in
theorem not_isFinite (h : a.exponent = 0xff) : ¬a.isFinite = true := by
  rw [isFinite_iff]
  omega

theorem isInfinite_iff : a.isInfinite = true ↔ a.exponent = 0xff ∧ a.mantissa = 0 := by
  have hexponent := a.exponent_lt
  have hmantissa := a.mantissa_lt
  rw [isInfinite, decide_eq_true_eq, magnitude_eq, infinityMagnitude]
  omega

theorem isNaN_iff : a.isNaN = true ↔ a.exponent = 0xff ∧ a.mantissa ≠ 0 := by
  have hexponent := a.exponent_lt
  have hmantissa := a.mantissa_lt
  rw [isNaN, decide_eq_true_eq, magnitude_eq, infinityMagnitude]
  omega

/-! ## Values -/

/-- The exact value of a finite number. -/
def value : ℚ :=
  fieldValue 23 127 a.isNegative a.exponent a.mantissa

theorem value_eq : a.value = a.signedUnits * 2 ^ (-149 : ℤ) := by
  have hmagnitude : a.exponent * 2 ^ 23 + a.mantissa = a.magnitude := a.magnitude_eq.symm
  have hunit : (1 - (127 : Nat) - (23 : Nat) : ℤ) = -149 := by decide
  rw [value, fieldValue_eq hasPrecision_units 127 _ a.mantissa_lt, hmagnitude, signedUnits,
    hunit, ← mul_assoc]
  cases a.isNegative <;> simp

theorem abs_value : |a.value| = units a.magnitude * 2 ^ (-149 : ℤ) := by
  have habs : |(a.signedUnits : ℚ)| = units a.magnitude := by
    rw [signedUnits]
    cases a.isNegative <;> simp
  rw [value_eq, abs_mul, habs, abs_of_pos (by positivity)]

end Binary32

end FragmentAssembly
