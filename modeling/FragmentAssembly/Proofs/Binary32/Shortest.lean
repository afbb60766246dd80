import FragmentAssembly.Binary32.Decimal
import FragmentAssembly.Proofs.Binary32.Value

/-!
# The shortest decimal reads back

A finite number is the nearest one to its shortest decimal, and to every other decimal with the
same value.
-/

namespace FragmentAssembly.Binary32

variable {m digits : Nat} {exponent : Int}

/-- The decimal `digits * 10 ^ exponent` is rounded to the magnitude `m`. -/
def IsNear (m digits : Nat) (exponent : Int) : Prop :=
  Encloses units m (digits * 10 ^ exponent.toNat * 2 ^ 149) (10 ^ (-exponent).toNat)

/-! ## Decimals of the same value -/

theorem isNear_ten_mul : IsNear m (10 * digits) exponent ↔ IsNear m digits (exponent + 1) := by
  unfold IsNear
  -- the sign of the exponent says which side of the quotient the power of ten stands on
  by_cases hsign : 0 ≤ exponent
  · have hnext : (exponent + 1).toNat = exponent.toNat + 1 := by omega
    have hnone : (-exponent).toNat = 0 := by omega
    have hnone' : (-(exponent + 1)).toNat = 0 := by omega
    have hsame : digits * (10 ^ exponent.toNat * 10) = 10 * digits * 10 ^ exponent.toNat := by ring
    rw [hnext, hnone, hnone', pow_succ 10 exponent.toNat, hsame]
  · have hnext : (-exponent).toNat = (-(exponent + 1)).toNat + 1 := by omega
    have hnone : exponent.toNat = 0 := by omega
    have hnone' : (exponent + 1).toNat = 0 := by omega
    rw [hnext, hnone, hnone', pow_zero, Nat.mul_one, Nat.mul_one, Nat.mul_assoc,
      pow_succ 10 (-(exponent + 1)).toNat, Nat.mul_comm _ 10]
    exact encloses_mul (by decide)

/-- Zeros can be written behind the digits. -/
theorem isNear_mul_pow (count : Nat) :
    IsNear m (digits * 10 ^ count) (exponent - count) ↔ IsNear m digits exponent := by
  induction count generalizing digits exponent with
  | zero => simp only [Nat.pow_zero, Nat.mul_one, Int.natCast_zero, Int.sub_zero]
  | succ count ih =>
    have hdigits : digits * 10 ^ (count + 1) = 10 * digits * 10 ^ count := by
      rw [Nat.pow_succ]
      ring
    have hexponent : exponent - ((count + 1 : Nat) : Int) = exponent - 1 - count := by omega
    rw [hdigits, hexponent, ih, isNear_ten_mul, Int.sub_add_cancel]

/-! ## Reading a decimal -/

theorem units_le_infinity (hm : m < infinityMagnitude) :
    units m + units (m + 1) ≤ 2 ^ 24 * 2 ^ 254 := by
  have hfirst : units m ≤ units infinityMagnitude := strictMono_units.monotone (Nat.le_of_lt hm)
  have hsecond : units (m + 1) ≤ units infinityMagnitude := strictMono_units.monotone hm
  have htop : units (254 * 0x800000 + 0x800000) = 0x800000 * 2 ^ 254 :=
    hasPrecision_units 254 0x800000 (by decide) (.inr (Nat.le_refl _))
  calc units m + units (m + 1) ≤ 0x800000 * 2 ^ 254 + 0x800000 * 2 ^ 254 := by
        rw [← htop]
        exact Nat.add_le_add hfirst hsecond
    _ = 2 ^ 24 * 2 ^ 254 := by decide

theorem units_pos (hm : 0 < m) : 0 < units m :=
  strictMono_units hm

/-- No decimal that is rounded to a finite magnitude is so great that it is not looked at. -/
theorem exponent_lt_of_isNear (hm : m < infinityMagnitude) (hdigits : digits ≠ 0)
    (h : IsNear m digits exponent) : exponent < 60 := by
  by_contra hgreat
  rw [Int.not_lt] at hgreat
  have hupper := h.upper
  have hnone : (-exponent).toNat = 0 := by omega
  rw [hnone, Nat.pow_zero, Nat.mul_one] at hupper
  have hbound := Nat.le_trans hupper (units_le_infinity hm)
  -- counted in units, twice the greatest finite number is less than `2 ^ 278`
  have hten : 2 ^ 180 ≤ 10 ^ exponent.toNat := by
    calc 2 ^ 180 ≤ 10 ^ 60 := by decide
      _ ≤ 10 ^ exponent.toNat := Nat.pow_le_pow_right (by decide) (by omega)
  have hleast : 2 ^ 180 * 2 ^ 149 ≤ digits * 10 ^ exponent.toNat * 2 ^ 149 := by
    apply Nat.mul_le_mul_right
    exact Nat.le_trans hten (Nat.le_mul_of_pos_left _ (Nat.pos_of_ne_zero hdigits))
  have hfar : 2 ^ 24 * 2 ^ 254 < 2 ^ 180 * 2 ^ 149 := by decide
  omega

/-- No decimal that is rounded to a magnitude above zero is so small. -/
theorem lt_of_isNear (hm : 0 < m) (h : IsNear m digits exponent) :
    -60 < exponent + (Nat.log2 digits + 1) := by
  by_contra hsmall
  rw [Int.not_lt] at hsmall
  have hlower := h.lower
  have hnone : exponent.toNat = 0 := by omega
  rw [hnone, Nat.pow_zero, Nat.mul_one] at hlower
  have hdigits : digits < 2 ^ (Nat.log2 digits + 1) := Nat.lt_log2_self
  -- the decimal is less than half of the least positive number, the first midpoint
  have hten : 2 ^ 150 * 2 ^ (Nat.log2 digits + 1) ≤ 10 ^ (-exponent).toNat := by
    calc 2 ^ 150 * 2 ^ (Nat.log2 digits + 1) ≤ 10 ^ 60 * 10 ^ (Nat.log2 digits + 1) :=
          Nat.mul_le_mul (by decide) (Nat.pow_le_pow_left (by decide) _)
      _ = 10 ^ (60 + (Nat.log2 digits + 1)) := (Nat.pow_add _ _ _).symm
      _ ≤ 10 ^ (-exponent).toNat := Nat.pow_le_pow_right (by decide) (by omega)
  have hpos : 1 ≤ units (m - 1) + units m := Nat.le_add_left_of_le (units_pos hm)
  have hleast : 10 ^ (-exponent).toNat ≤ 2 * (digits * 2 ^ 149) :=
    Nat.le_trans (Nat.le_mul_of_pos_left _ hpos) hlower
  have hdouble : 2 * (digits * 2 ^ 149) = 2 ^ 150 * digits := by
    rw [show 2 ^ 150 = 2 * 2 ^ 149 from rfl]
    ring
  have hstrict : 2 ^ 150 * digits < 2 ^ 150 * 2 ^ (Nat.log2 digits + 1) :=
    Nat.mul_lt_mul_of_pos_left hdigits (Nat.two_pow_pos 150)
  omega

theorem digits_ne_zero_of_isNear (hm : 0 < m) (h : IsNear m digits exponent) : digits ≠ 0 := by
  rintro rfl
  have hlower := h.lower
  rw [Nat.zero_mul, Nat.zero_mul, Nat.mul_zero, Nat.le_zero, Nat.mul_eq_zero] at hlower
  have hpos := units_pos hm
  have hten : 0 < 10 ^ (-exponent).toNat := Nat.pow_pos (by decide)
  omega

/-- A decimal is read as the magnitude that it is rounded to. -/
theorem ofDecimal_eq {negative : Bool} (hpos : 0 < m) (hm : m < infinityMagnitude)
    (h : IsNear m digits exponent) :
    ofDecimal ⟨negative, digits, exponent⟩ = ofMagnitude negative m := by
  have hdigits := digits_ne_zero_of_isNear hpos h
  have hgreat := exponent_lt_of_isNear hm hdigits h
  have hsmall := lt_of_isNear hpos h
  unfold ofDecimal
  dsimp only
  rw [if_neg hdigits, if_neg (Int.not_le.mpr hgreat), if_neg (Int.not_le.mpr hsmall), ofRatio,
    Nat.shiftLeft_eq]
  have hten : 0 < 10 ^ (-exponent).toNat := Nat.pow_pos (by decide)
  exact congrArg _ (nearestMagnitude_eq hasPrecision_units (by decide) hten hm h)

/-! ## The shortest decimal -/

/-- A multiple that was found is rounded to the magnitude. -/
theorem isNear_of_nearestMultiple? {k : Nat} (h : nearestMultiple? m exponent = some k) :
    IsNear m k exponent := by
  have hinside : ∀ k : Nat,
      (if m % 2 = 0 then
        decide ((units (m - 1) + units m) * 10 ^ (-exponent).toNat ≤
            k * ((10 ^ exponent.toNat) <<< 150)) &&
          decide (k * ((10 ^ exponent.toNat) <<< 150) ≤
            (units m + units (m + 1)) * 10 ^ (-exponent).toNat)
      else
        decide ((units (m - 1) + units m) * 10 ^ (-exponent).toNat <
            k * ((10 ^ exponent.toNat) <<< 150)) &&
          decide (k * ((10 ^ exponent.toNat) <<< 150) <
            (units m + units (m + 1)) * 10 ^ (-exponent).toNat)) = true →
      IsNear m k exponent := by
    intro k hk
    have hstep : k * ((10 ^ exponent.toNat) <<< 150) =
        2 * (k * 10 ^ exponent.toNat * 2 ^ 149) := by
      rw [Nat.shiftLeft_eq, show 2 ^ 150 = 2 * 2 ^ 149 from rfl]
      ring
    rw [hstep] at hk
    split at hk
    · simp only [Bool.and_eq_true, decide_eq_true_eq] at hk
      exact ⟨hk.1, hk.2, by omega⟩
    · simp only [Bool.and_eq_true, decide_eq_true_eq] at hk
      exact ⟨Nat.le_of_lt hk.1, Nat.le_of_lt hk.2, fun _ => hk⟩
  -- whichever multiple is chosen, it was found to be inside
  have hchosen : ∀ {b c d : Bool} {below above : Nat},
      (if (b && c) = true then some below else if d = true then some above else none) = some k →
      b = true ∧ below = k ∨ d = true ∧ above = k := by
    intro b c d below above hk
    cases b <;> cases c <;> cases d <;> simp_all
  rcases hchosen h with ⟨hbelow, rfl⟩ | ⟨habove, rfl⟩
  · exact hinside _ hbelow
  · exact hinside _ habove

/-- The exact decimal, which is taken if no shorter one was found. -/
theorem isNear_exact (m : Nat) :
    IsNear m ((units m * Nat.pow 10 149) >>> 149) (-149) := by
  have hten : Nat.pow 10 149 = 5 ^ 149 * 2 ^ 149 := Nat.mul_pow 5 2 149
  have hdigits : (units m * Nat.pow 10 149) >>> 149 = units m * 5 ^ 149 := by
    rw [Nat.shiftRight_eq_div_pow, hten, ← Nat.mul_assoc, Nat.mul_div_cancel _ (Nat.two_pow_pos _)]
  have hvalue : units m * 5 ^ 149 * 10 ^ (-149 : Int).toNat * 2 ^ 149 = 10 ^ 149 * units m := by
    rw [show (-149 : Int).toNat = 0 from rfl, Nat.pow_zero, Nat.mul_one, Nat.mul_assoc]
    exact (congrArg (units m * ·) hten.symm).trans (Nat.mul_comm _ _)
  unfold IsNear
  rw [hdigits, hvalue, show (10 : Nat) ^ (-(-149 : Int)).toNat = 10 ^ 149 * 1 from rfl]
  exact (encloses_mul (Nat.pow_pos (by decide))).mpr (encloses_self strictMono_units rfl)

theorem isNear_dropZeros {fuel : Nat} (h : IsNear m digits exponent) :
    IsNear m (dropZeros fuel digits exponent).1 (dropZeros fuel digits exponent).2 := by
  induction fuel generalizing digits exponent with
  | zero => exact h
  | succ fuel ih =>
    rw [dropZeros]
    split
    · rename_i hzero
      apply ih
      rw [← isNear_ten_mul, Nat.mul_div_cancel' (Nat.dvd_of_mod_eq_zero hzero)]
      exact h
    · exact h

theorem isNear_shortest {a : Binary32} (hpos : 0 < a.magnitude) :
    IsNear a.magnitude a.shortest.digits a.shortest.exponent := by
  unfold shortest
  rw [if_neg (show ¬a.isZero = true by rw [isZero, decide_eq_true_eq]; omega)]
  dsimp only
  apply isNear_dropZeros
  cases hfound : (List.range' 1 9).findSome? fun (count : Nat) =>
      (nearestMultiple? a.magnitude (decimalPoint a.magnitude - count)).map fun digits =>
        (digits, decimalPoint a.magnitude - count) with
  | none => exact isNear_exact a.magnitude
  | some found =>
    obtain ⟨count, -, hcount⟩ := List.exists_of_findSome?_eq_some hfound
    obtain ⟨k, hk, rfl⟩ := Option.map_eq_some_iff.mp hcount
    exact isNear_of_nearestMultiple? hk

end FragmentAssembly.Binary32
