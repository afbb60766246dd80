import FragmentAssembly.Proofs.Binary16.Rounding

/-!
# The nearest half

Conversion to a half is defined on every pattern of bits and correctly rounded.  The magnitude of
the result encloses that of the number, and halves of the other sign are not nearer than zero.
-/

namespace FragmentAssembly.Binary16

/-- The bits of a half are put together from the sign of the number and the rounded magnitude. -/
theorem exists_ofBinary32 {a : Binary32} {r : Nat}
    (hround : roundMagnitude? a.exponent a.mantissa = some r) (hr : r < 0x8000) :
    ∃ h, ofBinary32? a = some h ∧ h.isNegative = a.isNegative ∧ h.magnitude = r ∧
      h.exponent = r / 0x400 ∧ h.mantissa = r % 0x400 := by
  refine ⟨_, ?_, view_ofBits a.isNegative hr⟩
  have hsign : (a.bits.toNat >>> 16) &&& 0x8000 = if a.isNegative then 2 ^ 15 else 0 := by
    have hbits := a.bits.toNat_lt
    rw [Nat.shiftRight_eq_div_pow, Binary32.isNegative]
    refine (and_two_pow_eq _ 15).trans (if_congr ?_ rfl rfl)
    rw [decide_eq_true_eq]
    omega
  have hjoin : (if a.isNegative then 2 ^ 15 else 0) ||| r =
      (if a.isNegative then 0x8000 else 0) + r := sign_or a.isNegative hr
  have hword : Word.fit? 16 r = some r := Word.fit?_eq_some (by omega)
  simp only [ofBinary32?, hround, hword, hsign, hjoin, Option.bind_eq_bind, Option.bind_some,
    Option.pure_def]

/-! ## Distances -/

section Nearest

variable {a : Binary32} {g h : Binary16}

/-- The half is the nearest one of its sign, the even one of two. -/
theorem distance_le_of_sign_eq (hsign : h.isNegative = a.isNegative)
    (hencloses : Encloses units h.magnitude (Binary32.units a.magnitude) (2 ^ 125))
    (hg : g.isNegative = a.isNegative) :
    h.distance a ≤ g.distance a ∧
      (g.distance a = h.distance a → g = h ∨ h.mantissa % 2 = 0 ∧ g.mantissa % 2 = 1) := by
  have hnearest := hencloses.nearest hasPrecision_units.strictMono (by decide) g.magnitude
  rw [distance_of_sign_eq hsign, distance_of_sign_eq hg, ← magnitude_mod_two, ← magnitude_mod_two]
  exact hnearest.imp_right fun htie hsame =>
    (htie hsame).imp_left fun hmagnitude => ext_view (hg.trans hsign.symm) hmagnitude

/-- No half of the other sign is nearer, and only the two zeros are equally near. -/
theorem distance_le_of_sign_ne (hsign : h.isNegative = a.isNegative)
    (hencloses : Encloses units h.magnitude (Binary32.units a.magnitude) (2 ^ 125))
    (hg : g.isNegative ≠ a.isNegative) :
    h.distance a ≤ g.distance a ∧ (g.distance a = h.distance a → g.value = h.value) := by
  have hzero : units 0 = 0 := rfl
  obtain ⟨hnearest, htie⟩ := hencloses.nearest hasPrecision_units.strictMono (by decide) 0
  rw [hzero, Nat.zero_mul] at hnearest htie
  rw [distance_of_sign_eq hsign, distance_of_sign_ne hg]
  refine ⟨by omega, fun hsame => ?_⟩
  have hunits : units g.magnitude = 0 := by
    by_contra hne
    have hpos : 0 < units g.magnitude * 2 ^ 125 :=
      Nat.mul_pos (Nat.pos_of_ne_zero hne) (Nat.two_pow_pos 125)
    omega
  rw [hunits, Nat.zero_mul, Nat.zero_add] at hsame
  -- zero is as near as the nearest half, so that is zero
  have hmagnitude : 0 = h.magnitude := by
    rcases htie (by omega) with heq | ⟨-, hodd⟩
    · exact heq
    · exact absurd hodd (by decide)
  rw [value_eq, value_eq, signedUnits, signedUnits, hunits, ← hmagnitude, hzero, Int.natCast_zero,
    Int.neg_zero, ite_self, ite_self]

end Nearest

/-! ## Conversion -/

/-- The half `h` is what the number `a` is rounded to: the nearest one and of two nearest ones the
one with the even mantissa, or infinity from the midpoint behind the greatest half on. -/
structure IsConversion (a : Binary32) (h : Binary16) : Prop where
  sign : h.isNegative = a.isNegative
  nan : a.isNaN = true → h.isNaN = true
  infinite : a.isInfinite = true ∨ a.isFinite = true ∧ 65520 ≤ |a.value| → h.isInfinite = true
  finite : a.isFinite = true → |a.value| < 65520 → h.isFinite = true
  nearest : a.isFinite = true → |a.value| < 65520 → ∀ g : Binary16, g.isFinite = true →
    |h.value - a.value| ≤ |g.value - a.value|
  even : a.isFinite = true → |a.value| < 65520 → ∀ g : Binary16, g.isFinite = true →
    |g.value - a.value| = |h.value - a.value| → g.value ≠ h.value →
      h.mantissa % 2 = 0 ∧ g.mantissa % 2 = 1

/-- The midpoint behind the greatest half, in units of the least positive number. -/
theorem abs_value_lt_iff (a : Binary32) :
    |a.value| < 65520 ↔ Binary32.units a.magnitude < 65520 * 2 ^ 149 := by
  have hmidpoint : (65520 : ℚ) = ((65520 * 2 ^ 149 : Nat) : ℚ) * 2 ^ (-149 : ℤ) := by
    norm_num
  rw [Binary32.abs_value, hmidpoint, mul_lt_mul_iff_of_pos_right (by positivity), Nat.cast_lt]

theorem isConversion_finite {a : Binary32} (hfinite : a.isFinite = true) :
    ∃ h, ofBinary32? a = some h ∧ IsConversion a h := by
  have hexponent := a.isFinite_iff.mp hfinite
  -- the magnitude is rounded among magnitudes, and the signs are compared behind that
  obtain ⟨r, hround, hrounded⟩ := exists_isRounded hexponent a.mantissa_lt
  rw [← Binary32.magnitude_eq] at hrounded
  have hr := hrounded.le
  obtain ⟨h, hsome, hsign, rfl, hexp, hmant⟩ := exists_ofBinary32 hround (by omega)
  have hencloses : |a.value| < 65520 →
      Encloses units h.magnitude (Binary32.units a.magnitude) (2 ^ 125) := fun hless =>
    (hrounded.finite ((abs_value_lt_iff a).mp hless)).2
  refine ⟨h, hsome, ?_⟩
  constructor
  case sign => exact hsign
  case nan => exact fun hnan => absurd (a.isNaN_iff.mp hnan).1 (Nat.ne_of_lt hexponent)
  case infinite =>
    intro hgreat
    have hoverflow : ¬|a.value| < 65520 := by
      rcases hgreat with hinfinite | ⟨-, hle⟩
      · exact absurd (a.isInfinite_iff.mp hinfinite).1 (Nat.ne_of_lt hexponent)
      · exact not_lt.mpr hle
    rw [abs_value_lt_iff, Nat.not_lt] at hoverflow
    rw [isInfinite, hexp, hmant, hrounded.overflow hoverflow]
    decide
  case finite =>
    intro _ hless
    have hlast := (hrounded.finite ((abs_value_lt_iff a).mp hless)).1
    rw [isFinite, hexp]
    exact decide_eq_true (by omega)
  case nearest =>
    intro _ hless g _
    rw [abs_value_sub_le_iff]
    by_cases hg : g.isNegative = a.isNegative
    · exact (distance_le_of_sign_eq hsign (hencloses hless) hg).1
    · exact (distance_le_of_sign_ne hsign (hencloses hless) hg).1
  case even =>
    intro _ hless g _ htie hne
    rw [abs_value_sub_eq_iff] at htie
    by_cases hg : g.isNegative = a.isNegative
    · refine ((distance_le_of_sign_eq hsign (hencloses hless) hg).2 htie).resolve_left ?_
      rintro rfl
      exact hne rfl
    · exact absurd ((distance_le_of_sign_ne hsign (hencloses hless) hg).2 htie) hne

/-- What a number is rounded to that is not finite. -/
theorem IsConversion.of_special {a : Binary32} {h : Binary16} (hexponent : a.exponent = 0xff)
    (hsign : h.isNegative = a.isNegative) (hnan : a.isNaN = true → h.isNaN = true)
    (hinfinite : a.isInfinite = true → h.isInfinite = true) : IsConversion a h where
  sign := hsign
  nan := hnan
  infinite h := h.elim hinfinite fun hfinite =>
    absurd hfinite.1 (Binary32.not_isFinite hexponent)
  finite hfinite := absurd hfinite (Binary32.not_isFinite hexponent)
  nearest hfinite := absurd hfinite (Binary32.not_isFinite hexponent)
  even hfinite := absurd hfinite (Binary32.not_isFinite hexponent)

theorem isConversion_infinite {a : Binary32} (hinfinite : a.isInfinite = true) :
    ∃ h, ofBinary32? a = some h ∧ IsConversion a h := by
  obtain ⟨hexponent, hmantissa⟩ := a.isInfinite_iff.mp hinfinite
  have hround : roundMagnitude? a.exponent a.mantissa = some 0x7c00 := by
    rw [roundMagnitude?, if_pos hexponent, if_pos hmantissa]
  obtain ⟨h, hsome, hsign, -, hexp, hmant⟩ := exists_ofBinary32 hround (by decide)
  refine ⟨h, hsome, .of_special hexponent hsign
    (fun hnan => absurd hmantissa (a.isNaN_iff.mp hnan).2) fun _ => ?_⟩
  rw [isInfinite, hexp, hmant]
  decide

/-- The top bits of the payload of a NaN, with the quiet bit set. -/
theorem roundMagnitude?_nan {mantissa : Nat} (hmantissa : mantissa < 0x800000)
    (hne : mantissa ≠ 0) :
    roundMagnitude? 0xff mantissa = some (0x7c00 + (0x200 ||| mantissa / 0x2000)) ∧
      0 < 0x200 ||| mantissa / 0x2000 ∧ 0x200 ||| mantissa / 0x2000 < 0x400 := by
  have hless : 0x200 ||| mantissa / 0x2000 < 2 ^ 10 := Nat.or_lt_two_pow (by decide) (by omega)
  have hsum := Nat.two_pow_add_eq_or_of_lt hless 0x1f
  refine ⟨?_, Nat.lt_of_lt_of_le (by decide) Nat.left_le_or, hless⟩
  rw [roundMagnitude?, if_pos rfl, if_neg hne, Nat.shiftRight_eq_div_pow]
  exact congrArg some ((Nat.or_assoc 0x7c00 0x200 _).trans hsum.symm)

theorem isConversion_nan {a : Binary32} (hnan : a.isNaN = true) :
    ∃ h, ofBinary32? a = some h ∧ IsConversion a h := by
  obtain ⟨hexponent, hmantissa⟩ := a.isNaN_iff.mp hnan
  obtain ⟨hround, hpos, hless⟩ := roundMagnitude?_nan a.mantissa_lt hmantissa
  rw [← hexponent] at hround
  obtain ⟨h, hsome, hsign, -, hexp, hmant⟩ := exists_ofBinary32 hround (by omega)
  refine ⟨h, hsome, .of_special hexponent hsign (fun _ => ?_)
    fun hinfinite => absurd (a.isInfinite_iff.mp hinfinite).2 hmantissa⟩
  rw [isNaN_iff, hexp, hmant]
  omega

/-- The conversion of every pattern of bits is correctly rounded, and no step on the way to it
leaves its word. -/
theorem ofBinary32_isConversion (a : Binary32) :
    ofBinary32? a = some (ofBinary32 a) ∧ IsConversion a (ofBinary32 a) := by
  have hconversion : ∃ h, ofBinary32? a = some h ∧ IsConversion a h := by
    rcases Nat.lt_trichotomy a.magnitude Binary32.infinityMagnitude with hless | heq | hgreat
    · exact isConversion_finite (decide_eq_true hless)
    · exact isConversion_infinite (decide_eq_true heq)
    · exact isConversion_nan (decide_eq_true hgreat)
  obtain ⟨h, hsome, hconverts⟩ := hconversion
  rw [ofBinary32, hsome, Option.getD_some]
  exact ⟨rfl, hconverts⟩

end FragmentAssembly.Binary16
