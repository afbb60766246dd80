import FragmentAssembly.Proofs.Binary16.Nearest

/-!
# Widening and rounding back

A half is widened without a change of its value, and rounding gives it back.  Only a NaN comes back
with its quiet bit set.
-/

namespace FragmentAssembly.Binary16

/-! ## Normalizing a subnormal mantissa -/

theorem normalize?_eq {exponent mantissa : Nat} (steps : Nat) (hfew : steps ≤ exponent)
    (hlow : 0x400 ≤ mantissa * 2 ^ steps) (hhigh : mantissa * 2 ^ steps < 0x800) :
    normalize? exponent mantissa = some (exponent - steps, mantissa * 2 ^ steps) := by
  -- each step is a doubling, until the leading bit is in its place
  induction steps generalizing exponent mantissa with
  | zero =>
    rw [Nat.pow_zero, Nat.mul_one] at hlow hhigh ⊢
    have hbit : mantissa &&& 0x400 ≠ 0 := by
      rw [show mantissa &&& 0x400 = _ from and_two_pow_eq mantissa 10, if_pos (by omega)]
      decide
    rw [normalize?.eq_def]
    exact if_neg hbit
  | succ steps ih =>
    have hdouble : mantissa * 2 ^ (steps + 1) = 2 * mantissa * 2 ^ steps := by ring
    have hpos := Nat.two_pow_pos steps
    rw [hdouble] at hlow hhigh ⊢
    have hless : 2 * mantissa < 0x800 :=
      Nat.lt_of_le_of_lt (Nat.le_mul_of_pos_right _ hpos) hhigh
    have hbit : mantissa &&& 0x400 = 0 := by
      rw [show mantissa &&& 0x400 = _ from and_two_pow_eq mantissa 10, if_neg (by omega)]
    have hshift : Word.shiftLeft? 32 mantissa 1 = some (2 * mantissa) := by
      have heq : mantissa <<< 1 = 2 * mantissa := by omega
      rw [Word.shiftLeft?_eq_some (by decide) (by omega), heq]
    obtain ⟨exponent, rfl⟩ := Nat.exists_eq_succ_of_ne_zero (Nat.ne_of_gt (Nat.zero_lt_of_lt hfew))
    rw [normalize?, if_pos hbit]
    simp only [hshift, Option.bind_eq_bind, Option.bind_some]
    rw [ih (Nat.le_of_succ_le_succ hfew) hlow hhigh, Nat.succ_sub_succ]

/-- The leading one of a mantissa is at most ten places away. -/
theorem exists_steps {mantissa : Nat} (hne : mantissa ≠ 0) (hless : mantissa < 0x400) :
    ∃ steps, steps ≤ 10 ∧ 0x400 ≤ mantissa * 2 ^ steps ∧ mantissa * 2 ^ steps < 0x800 := by
  have hlog : mantissa.log2 < 10 := (Nat.log2_lt hne).mpr hless
  have hlow := Nat.log2_self_le hne
  have hhigh : mantissa < 2 ^ (mantissa.log2 + 1) := Nat.lt_log2_self
  have hplaces : mantissa.log2 + (10 - mantissa.log2) = 10 := by omega
  refine ⟨10 - mantissa.log2, Nat.sub_le _ _, ?_, ?_⟩
  · calc 0x400 = 2 ^ mantissa.log2 * 2 ^ (10 - mantissa.log2) := by rw [← Nat.pow_add, hplaces]
      _ ≤ _ := Nat.mul_le_mul_right _ hlow
  · calc _ < 2 ^ (mantissa.log2 + 1) * 2 ^ (10 - mantissa.log2) :=
          Nat.mul_lt_mul_of_pos_right hhigh (Nat.two_pow_pos _)
      _ = 0x800 := by rw [← Nat.pow_add, Nat.add_right_comm, hplaces]

/-! ## The widened magnitude -/

theorem joinFields?_eq {exponent mantissa : Nat} (hexponent : exponent < 0x100)
    (hmantissa : mantissa < 0x400) :
    joinFields? exponent mantissa = some (exponent * 0x800000 + mantissa * 0x2000) := by
  have htop : Word.shiftLeft? 32 exponent 23 = some (exponent <<< 23) :=
    Word.shiftLeft?_eq_some (by decide) (by omega)
  have hrest : Word.shiftLeft? 32 mantissa 13 = some (mantissa <<< 13) :=
    Word.shiftLeft?_eq_some (by decide) (by omega)
  have hjoin : exponent <<< 23 ||| mantissa <<< 13 = exponent * 0x800000 + mantissa * 0x2000 := by
    rw [← Nat.shiftLeft_add_eq_or_of_lt (by omega)]
    omega
  simp only [joinFields?, htop, hrest, hjoin, Option.bind_eq_bind, Option.bind_some,
    Option.pure_def]

theorem widenMagnitude?_subnormal {mantissa exponent normalized : Nat} (hne : mantissa ≠ 0)
    (h : normalize? 113 mantissa = some (exponent, normalized)) :
    widenMagnitude? 0 mantissa = joinFields? exponent (normalized &&& 0x3ff) := by
  rw [widenMagnitude?, if_pos rfl, if_neg hne]
  simp only [h, Option.bind_eq_bind, Option.bind_some]

theorem exists_widenMagnitude_subnormal {mantissa : Nat} (hmantissa : mantissa < 0x400) :
    ∃ r, widenMagnitude? 0 mantissa = some r ∧ r < 0x7f800000 ∧
      Binary32.units r = units mantissa * 2 ^ 125 := by
  have hunits : units mantissa = mantissa := if_pos (by omega)
  rw [hunits]
  by_cases hzero : mantissa = 0
  · rw [hzero, Nat.zero_mul]
    exact ⟨0, by rw [widenMagnitude?, if_pos rfl, if_pos rfl], by decide, rfl⟩
  · obtain ⟨steps, hfew, hlow, hhigh⟩ := exists_steps hzero hmantissa
    have hnormal : normalize? 113 mantissa = some (113 - steps, mantissa * 2 ^ steps) :=
      normalize?_eq steps (by omega) hlow hhigh
    have hfield : mantissa * 2 ^ steps &&& 0x3ff = mantissa * 2 ^ steps - 0x400 := by
      refine (Nat.and_two_pow_sub_one_eq_mod _ 10).trans ?_
      omega
    rw [widenMagnitude?_subnormal hzero hnormal, hfield]
    refine ⟨_, joinFields?_eq (by omega) (by omega), by omega, ?_⟩
    have hplace : 113 - steps = 112 - steps + 1 := by omega
    have hsignificand : 0x800000 + (mantissa * 2 ^ steps - 0x400) * 0x2000 =
        mantissa * 2 ^ steps * 2 ^ 13 := by omega
    have hdoublings : steps + 13 + (112 - steps) = 125 := by omega
    rw [hplace, units_normal (by omega), hsignificand, Nat.mul_assoc, Nat.mul_assoc,
      ← Nat.mul_assoc (2 ^ steps), ← Nat.pow_add, ← Nat.pow_add, hdoublings]

theorem widenMagnitude?_normal {exponent mantissa : Nat} (hne : exponent ≠ 0)
    (hexponent : exponent < 0x1f) :
    widenMagnitude? exponent mantissa = joinFields? (exponent + 112) mantissa := by
  have hsum : Word.add? 32 exponent 127 = some (exponent + 127) := Word.add?_eq_some (by omega)
  have hbiased : Word.sub? (exponent + 127) 15 = some (exponent + 112) := by
    have hplace : exponent + 127 - 15 = exponent + 112 := by omega
    rw [Word.sub?_eq_some (by omega), hplace]
  rw [widenMagnitude?, if_neg hne, if_neg (Nat.ne_of_lt hexponent), hsum, Option.bind_eq_bind,
    Option.bind_some, hbiased, Option.bind_some]

/-- The magnitude of a finite half in the greater format. -/
theorem exists_widenMagnitude {exponent mantissa : Nat} (hexponent : exponent < 0x1f)
    (hmantissa : mantissa < 0x400) :
    ∃ r, widenMagnitude? exponent mantissa = some r ∧ r < 0x7f800000 ∧
      Binary32.units r = units (exponent * 0x400 + mantissa) * 2 ^ 125 := by
  cases exponent with
  | zero =>
    rw [Nat.zero_mul, Nat.zero_add]
    exact exists_widenMagnitude_subnormal hmantissa
  | succ s =>
    rw [widenMagnitude?_normal (by omega) hexponent, Nat.add_right_comm]
    refine ⟨_, joinFields?_eq (by omega) hmantissa, by omega, ?_⟩
    have hsplit : (s + 1) * 0x400 + mantissa = s * 2 ^ 10 + (0x400 + mantissa) := by omega
    have hvalue := hasPrecision_units s (0x400 + mantissa) (by omega) (.inr (by omega))
    have hsignificand : 0x800000 + mantissa * 0x2000 = (0x400 + mantissa) * 2 ^ 13 := by omega
    have hdoublings : 13 + (s + 112) = s + 125 := by omega
    rw [units_normal (by omega), hsplit, hvalue, hsignificand, Nat.mul_assoc, Nat.mul_assoc,
      ← Nat.pow_add, ← Nat.pow_add, hdoublings]

theorem widenMagnitude?_special {mantissa : Nat} (hmantissa : mantissa < 0x400) :
    widenMagnitude? 0x1f mantissa = some (0x7f800000 + mantissa * 0x2000) := by
  have hrest : Word.shiftLeft? 32 mantissa 13 = some (mantissa <<< 13) :=
    Word.shiftLeft?_eq_some (by decide) (by omega)
  have hjoin : 0x7f800000 ||| mantissa <<< 13 = 0x7f800000 + mantissa * 0x2000 := by
    have hor : 0xff <<< 23 + mantissa <<< 13 = 0xff <<< 23 ||| mantissa <<< 13 :=
      Nat.shiftLeft_add_eq_or_of_lt (by omega) _
    have hshift : mantissa <<< 13 = mantissa * 0x2000 := by omega
    exact hor.symm.trans (congrArg (0x7f800000 + ·) hshift)
  rw [widenMagnitude?, if_neg (by decide), if_pos rfl]
  simp only [hrest, hjoin, Option.bind_eq_bind, Option.bind_some, Option.pure_def]

/-! ## The widened number -/

/-- The bits of the number are put together from the sign of the half and the widened magnitude. -/
theorem exists_toBinary32 {h : Binary16} {r : Nat}
    (hwiden : widenMagnitude? h.exponent h.mantissa = some r) (hr : r < 0x80000000) :
    ∃ a, toBinary32? h = some a ∧ a.isNegative = h.isNegative ∧ a.magnitude = r := by
  have hsign : h.bits.toNat &&& 0x8000 = if h.isNegative then 0x8000 else 0 := by
    have hbits := h.bits.toNat_lt
    rw [isNegative]
    refine (and_two_pow_eq _ 15).trans (if_congr ?_ rfl rfl)
    rw [decide_eq_true_eq]
    omega
  have hshift : Word.shiftLeft? 32 (if h.isNegative then 0x8000 else 0) 16 =
      some (if h.isNegative then 2 ^ 31 else 0) := by
    cases h.isNegative <;> rfl
  have hjoin : (if h.isNegative then 2 ^ 31 else 0) ||| r =
      (if h.isNegative then 0x80000000 else 0) + r := sign_or h.isNegative hr
  refine ⟨.ofMagnitude h.isNegative r, ?_, Binary32.isNegative_ofMagnitude _ _, ?_⟩
  · rw [toBinary32?, hsign, hshift, hwiden, Option.bind_eq_bind, Option.bind_some,
      Option.bind_some, hjoin, Binary32.ofMagnitude, Nat.mod_eq_of_lt hr]
    rfl
  · rw [Binary32.magnitude_ofMagnitude, Nat.mod_eq_of_lt hr]

/-- The number `a` is the half `h` in the greater format: it has its sign and its value, and a NaN
keeps its payload in the top bits of the mantissa. -/
structure IsWidening (h : Binary16) (a : Binary32) : Prop where
  sign : a.isNegative = h.isNegative
  finite : h.isFinite = true → a.isFinite = true ∧ a.value = h.value
  infinite : h.isInfinite = true → a.isInfinite = true
  nan : h.isNaN = true → a.isNaN = true ∧ a.mantissa = h.mantissa <<< 13

variable {h : Binary16}

theorem exists_isWidening_finite (hfinite : h.isFinite = true) :
    ∃ a, toBinary32? h = some a ∧ IsWidening h a ∧
      Binary32.units a.magnitude = units h.magnitude * 2 ^ 125 := by
  have hexponent : h.exponent < 0x1f := of_decide_eq_true hfinite
  obtain ⟨r, hwiden, hr, hunits⟩ := exists_widenMagnitude hexponent h.mantissa_lt
  obtain ⟨a, hsome, hsign, rfl⟩ := exists_toBinary32 hwiden (by omega)
  refine ⟨a, hsome, ⟨hsign, fun _ => ⟨decide_eq_true hr, ?_⟩, fun hinfinite => ?_, fun hnan => ?_⟩,
    hunits⟩
  · rw [value_eq, Binary32.value_eq, Binary32.signedUnits, signedUnits, hsign, hunits, magnitude]
    cases h.isNegative
    · rw [if_neg Bool.false_ne_true, if_neg Bool.false_ne_true]
      push_cast
      rfl
    · rw [if_pos rfl, if_pos rfl]
      push_cast
      ring
  · exact absurd (h.isInfinite_iff.mp hinfinite).1 (Nat.ne_of_lt hexponent)
  · exact absurd (h.isNaN_iff.mp hnan).1 (Nat.ne_of_lt hexponent)

theorem exists_isWidening_special (hexponent : h.exponent = 0x1f) :
    ∃ a, toBinary32? h = some a ∧ IsWidening h a ∧ a.exponent = 0xff ∧
      a.mantissa = h.mantissa * 0x2000 := by
  have hmantissa := h.mantissa_lt
  have hwiden := widenMagnitude?_special hmantissa
  rw [← hexponent] at hwiden
  obtain ⟨a, hsome, hsign, hmagnitude⟩ := exists_toBinary32 hwiden (by omega)
  have hfields : a.exponent = 0xff ∧ a.mantissa = h.mantissa * 0x2000 := by
    have hlast := a.exponent_lt
    have hless := a.mantissa_lt
    rw [Binary32.magnitude_eq] at hmagnitude
    omega
  refine ⟨a, hsome, ⟨hsign, fun hfinite => absurd hfinite (not_isFinite hexponent),
    fun hinfinite => ?_, fun hnan => ⟨?_, ?_⟩⟩, hfields⟩
  · rw [Binary32.isInfinite_iff, hfields.1, hfields.2, (h.isInfinite_iff.mp hinfinite).2]
    exact ⟨rfl, rfl⟩
  · have hne := (h.isNaN_iff.mp hnan).2
    rw [Binary32.isNaN_iff, hfields.1, hfields.2]
    omega
  · rw [hfields.2, Nat.shiftLeft_eq]

/-- Widening is defined on every half and exact. -/
theorem exists_isWidening (h : Binary16) : ∃ a, toBinary32? h = some a ∧ IsWidening h a := by
  rcases h.isFinite_or with hfinite | hspecial
  · obtain ⟨a, hsome, hwidening, -⟩ := exists_isWidening_finite hfinite
    exact ⟨a, hsome, hwidening⟩
  · obtain ⟨a, hsome, hwidening, -⟩ := exists_isWidening_special hspecial
    exact ⟨a, hsome, hwidening⟩

/-! ## Rounding back -/

theorem ofBinary32_toBinary32_finite (hfinite : h.isFinite = true) :
    ofBinary32 (toBinary32 h) = h := by
  obtain ⟨a, hwide, hwidening, hunits⟩ := exists_isWidening_finite hfinite
  have hexponent := a.isFinite_iff.mp (hwidening.finite hfinite).1
  obtain ⟨r, hround, hrounded⟩ := exists_isRounded hexponent a.mantissa_lt
  have hr := hrounded.le
  obtain ⟨g, hsome, hsign, rfl, -⟩ := exists_ofBinary32 hround (by omega)
  rw [← Binary32.magnitude_eq, hunits] at hrounded
  have hless : units h.magnitude * 2 ^ 125 < 65520 * 2 ^ 149 := by
    have hgreatest : h.magnitude ≤ 0x7bff := by
      have hlast : h.exponent < 0x1f := of_decide_eq_true hfinite
      have hmantissa := h.mantissa_lt
      rw [magnitude]
      omega
    have hmono : units h.magnitude ≤ units 0x7bff :=
      hasPrecision_units.strictMono.monotone hgreatest
    calc _ ≤ units 0x7bff * 2 ^ 125 := Nat.mul_le_mul_right _ hmono
      _ < _ := by decide
  -- a half encloses its own value, and only one does
  have hself : Encloses units h.magnitude (units h.magnitude * 2 ^ 125) (2 ^ 125) := by
    have hexact := encloses_self (m := h.magnitude) hasPrecision_units.strictMono
      hasPrecision_units.zero
    rw [← encloses_mul (Nat.two_pow_pos 125), Nat.mul_one, Nat.mul_comm] at hexact
    exact hexact
  have hmagnitude : g.magnitude = h.magnitude :=
    (hrounded.finite hless).2.eq hself hasPrecision_units.strictMono (Nat.two_pow_pos 125)
  rw [toBinary32, hwide, Option.getD_some, ofBinary32, hsome, Option.getD_some]
  exact ext_view (hsign.trans hwidening.sign) hmagnitude

/-- Setting the quiet bit of a payload. -/
theorem quietBit_or {mantissa : Nat} (h : mantissa < 0x400) :
    0x200 ||| mantissa = mantissa + if mantissa < 0x200 then 0x200 else 0 := by
  by_cases hclear : mantissa < 0x200
  · have hset : 0x200 ||| mantissa = 0x200 + mantissa :=
      two_pow_or (show mantissa < 2 ^ 9 from hclear)
    rw [if_pos hclear, hset, Nat.add_comm]
  · have hset : 0x200 ||| (mantissa - 0x200) = 0x200 + (mantissa - 0x200) :=
      two_pow_or (show mantissa - 0x200 < 2 ^ 9 by omega)
    have hsplit : mantissa = 0x200 + (mantissa - 0x200) := by omega
    rw [if_neg hclear, hsplit, ← hset, ← Nat.or_assoc, Nat.or_self, Nat.add_zero]

theorem ofBinary32_toBinary32_special (hexponent : h.exponent = 0x1f) :
    (ofBinary32 (toBinary32 h)).isNegative = h.isNegative ∧
      (ofBinary32 (toBinary32 h)).magnitude =
        h.magnitude + if h.mantissa ≠ 0 ∧ h.mantissa < 0x200 then 0x200 else 0 := by
  obtain ⟨a, hwide, hwidening, hlast, hmantissa⟩ := exists_isWidening_special hexponent
  have hless := h.mantissa_lt
  have hround : roundMagnitude? a.exponent a.mantissa =
      some (h.magnitude + if h.mantissa ≠ 0 ∧ h.mantissa < 0x200 then 0x200 else 0) := by
    rw [magnitude, hexponent, hlast]
    by_cases hzero : h.mantissa = 0
    · rw [roundMagnitude?, if_pos rfl, if_pos (by omega), if_neg (fun hne => hne.1 hzero), hzero]
    · obtain ⟨hnan, -⟩ := roundMagnitude?_nan a.mantissa_lt (by omega)
      have htop : a.mantissa / 0x2000 = h.mantissa := by omega
      rw [hnan, htop, quietBit_or hless]
      simp only [hzero, ne_eq, not_false_eq_true, true_and, Nat.add_assoc]
  obtain ⟨g, hsome, hsign, hmagnitude, -⟩ := exists_ofBinary32 hround (by
    rw [magnitude]
    split <;> omega)
  rw [toBinary32, hwide, Option.getD_some, ofBinary32, hsome, Option.getD_some]
  exact ⟨hsign.trans hwidening.sign, hmagnitude⟩

/-- Rounding gives a widened half back, with the quiet bit set if it is a signalling NaN. -/
theorem toNat_bits_ofBinary32_toBinary32 (h : Binary16) :
    (ofBinary32 (toBinary32 h)).bits.toNat =
      h.bits.toNat + if h.isSignalling then 0x200 else 0 := by
  rcases h.isFinite_or with hfinite | hspecial
  · have hquiet : h.isSignalling = false := by
      rw [isSignalling, Bool.and_eq_false_iff]
      exact .inl (Bool.eq_false_iff.mpr fun hnan => not_isFinite (h.isNaN_iff.mp hnan).1 hfinite)
    rw [ofBinary32_toBinary32_finite hfinite, hquiet]
    rfl
  · obtain ⟨hsign, hmagnitude⟩ := ofBinary32_toBinary32_special hspecial
    have hsignalling : h.isSignalling = true ↔ h.mantissa ≠ 0 ∧ h.mantissa < 0x200 := by
      rw [isSignalling, Bool.and_eq_true, isNaN_iff, decide_eq_true_eq]
      simp only [hspecial, true_and]
    rw [toNat_bits, toNat_bits h, hsign, hmagnitude, Nat.add_assoc, if_congr hsignalling rfl rfl]

end FragmentAssembly.Binary16
