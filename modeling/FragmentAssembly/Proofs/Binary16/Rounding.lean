import FragmentAssembly.Proofs.Binary16.Value

/-!
# Rounding to a half

The steps that round a number to a half stay in their words, in each of the ranges that they tell
apart.  What they give is the magnitude that encloses the number, or that of infinity from the
midpoint behind the greatest half on.
-/

namespace FragmentAssembly.Binary16

/-! ## Rounding a significand -/

/-- A quotient behind an even number of wholes is rounded like the quotient alone. -/
theorem roundPlace?_eq (base n half : Nat) (hbase : base % 2 = 0)
    (hfits : base + n / (2 * half) + 1 < 1 <<< 32) :
    roundPlace? (base + n / (2 * half)) (n % (2 * half)) half =
      some (base + roundDivEven n (2 * half)) := by
  unfold roundPlace? roundDivEven
  rw [Nat.and_one_is_mod, Word.add?_eq_some hfits]
  generalize n / (2 * half) = quotient
  generalize n % (2 * half) = rest
  by_cases hlow : rest < half
  · rw [if_neg (by omega), if_pos (by omega)]
  · by_cases hhigh : half < rest
    · rw [if_pos (by omega), if_neg (by omega), if_pos (by omega), Nat.add_assoc]
    · -- the rest is one half
      rw [if_neg (show ¬2 * rest < 2 * half by omega), if_neg (show ¬2 * half < 2 * rest by omega)]
      rcases Nat.mod_two_eq_zero_or_one quotient with heven | hodd
      · rw [if_neg (by omega), heven, Nat.add_zero]
      · rw [if_pos (by omega), hodd, Nat.add_assoc]

theorem shiftLeft?_one {places : Nat} (h : places < 32) :
    Word.shiftLeft? 32 1 places = some (2 ^ places) := by
  have hshift : 1 <<< places = 2 ^ places := by rw [Nat.shiftLeft_eq, Nat.one_mul]
  rw [← hshift]
  refine Word.shiftLeft?_eq_some h ?_
  rw [hshift]
  exact Nat.pow_lt_pow_right (by decide) h

/-- The significand of a normal number. -/
theorem or_leadingOne {mantissa : Nat} (h : mantissa < 0x800000) :
    mantissa ||| 0x800000 = 0x800000 + mantissa := by
  have hor : 2 ^ 23 ||| mantissa = 2 ^ 23 + mantissa := two_pow_or h
  rw [Nat.or_comm]
  exact hor

theorem roundSubnormal?_eq {places mantissa : Nat} {exponent : Int}
    (hmantissa : mantissa < 0x800000) (hplaces : 14 - exponent = places) (hpos : 0 < places)
    (hlast : places < 32) :
    roundSubnormal? exponent mantissa =
      some (roundDivEven (0x800000 + mantissa) (2 ^ places)) := by
  obtain ⟨before, rfl⟩ : ∃ before, places = before + 1 := ⟨places - 1, by omega⟩
  have hdouble : 2 ^ (before + 1) = 2 * 2 ^ before := by rw [Nat.pow_succ, Nat.mul_comm]
  have hquotient : (0x800000 + mantissa) / (2 * 2 ^ before) ≤ 0x800000 + mantissa :=
    Nat.div_le_self _ _
  have hround := roundPlace?_eq 0 (0x800000 + mantissa) (2 ^ before) rfl (by omega)
  rw [Nat.zero_add, Nat.zero_add, ← hdouble] at hround
  -- the places, in both kinds of words
  have hsigned : Word.fitSigned? 32 (14 - exponent) = some ((before + 1 : Nat) : Int) := by
    rw [hplaces]
    exact Word.fitSigned?_eq_some (by omega) (by omega)
  have hunsigned : Word.ofSigned? 32 ((before + 1 : Nat) : Int) = some (before + 1) :=
    Word.ofSigned?_eq_some (by omega)
  have hfewer : Word.sub? (before + 1) 1 = some before := Word.sub?_eq_some (Nat.le_add_left _ _)
  -- the half, the mask and the quotient
  have hhalf : Word.shiftLeft? 32 1 before = some (2 ^ before) := shiftLeft?_one (by omega)
  have hplace : Word.shiftLeft? 32 1 (before + 1) = some (2 ^ (before + 1)) := shiftLeft?_one hlast
  have hmask : Word.sub? (2 ^ (before + 1)) 1 = some (2 ^ (before + 1) - 1) :=
    Word.sub?_eq_some Nat.one_le_two_pow
  have hshift : Word.shiftRight? 32 (0x800000 + mantissa) (before + 1) =
      some ((0x800000 + mantissa) / 2 ^ (before + 1)) := by
    rw [Word.shiftRight?_eq_some hlast, Nat.shiftRight_eq_div_pow]
  simp only [roundSubnormal?, or_leadingOne hmantissa, hsigned, hunsigned, hfewer, hhalf, hplace,
    hmask, hshift, Nat.and_two_pow_sub_one_eq_mod, hround, Option.bind_eq_bind, Option.bind_some]

theorem roundNormal?_eq {k mantissa : Nat} (hk : k < 30) (hmantissa : mantissa < 0x800000) :
    roundNormal? ((k + 1 : Nat) : Int) mantissa =
      some (k * 0x400 + roundDivEven (0x800000 + mantissa) (2 ^ 13)) := by
  have hunsigned : Word.ofSigned? 32 ((k + 1 : Nat) : Int) = some (k + 1) :=
    Word.ofSigned?_eq_some (by omega)
  have htop : Word.shiftLeft? 32 (k + 1) 10 = some ((k + 1) <<< 10) :=
    Word.shiftLeft?_eq_some (by decide) (by omega)
  -- the leading one is the last unit of the exponent
  have hjoin : (k + 1) <<< 10 ||| mantissa >>> 13 =
      k * 0x400 + (0x800000 + mantissa) / (2 * 0x1000) := by
    rw [Nat.shiftRight_eq_div_pow, ← Nat.shiftLeft_add_eq_or_of_lt (by omega), Nat.shiftLeft_eq]
    omega
  have hrest : mantissa &&& 0x1fff = (0x800000 + mantissa) % (2 * 0x1000) := by
    have hmask : mantissa &&& 0x1fff = mantissa % 2 ^ 13 := Nat.and_two_pow_sub_one_eq_mod _ 13
    omega
  simp only [roundNormal?, hunsigned, htop, Option.bind_eq_bind, Option.bind_some, hjoin, hrest]
  exact roundPlace?_eq (k * 0x400) (0x800000 + mantissa) 0x1000 (by omega) (by omega)

/-! ## The magnitude of the nearest half -/

/-- A number of `n` units of `2 ^ (-149)` is rounded to the half of magnitude `r`.  From the
midpoint behind the greatest half on, this is infinity. -/
structure IsRounded (n r : Nat) : Prop where
  finite : n < 65520 * 2 ^ 149 → r < 0x7c00 ∧ Encloses units r n (2 ^ 125)
  overflow : 65520 * 2 ^ 149 ≤ n → r = 0x7c00

variable {mantissa : Nat}

theorem isRounded_tiny {n : Nat} (h : 2 * n ≤ 2 ^ 125) : IsRounded n 0 := by
  refine ⟨fun _ => ⟨by decide, ?_⟩, fun hgreat => by omega⟩
  have hnear : RoundsTo n (2 ^ 125 * 2 ^ 0) 0 := roundsTo_zero (by rwa [Nat.pow_zero, Nat.mul_one])
  exact encloses_round hasPrecision_units (by decide) (Nat.zero_le _) (.inl rfl) (.inl rfl) hnear

/-- In the subnormal halves the places of the significand that are kept count the least half. -/
theorem isRounded_subnormal {places s : Nat} (hmantissa : mantissa < 0x800000)
    (hplaces : places + s = 125) (hfirst : 14 ≤ places) :
    IsRounded ((0x800000 + mantissa) * 2 ^ s)
      (roundDivEven (0x800000 + mantissa) (2 ^ places)) := by
  have hpos : 0 < 2 ^ places := Nat.two_pow_pos places
  have hnear := (roundsTo_roundDivEven (0x800000 + mantissa) hpos).mul (Nat.two_pow_pos s)
  rw [← Nat.pow_add, hplaces] at hnear
  have hquotient : (0x800000 + mantissa) / 2 ^ places ≤ 0x3ff := by
    refine Nat.le_of_lt_succ ((Nat.div_lt_iff_lt_mul hpos).mpr ?_)
    calc 0x800000 + mantissa < 0x400 * 2 ^ 14 := by omega
      _ ≤ 0x400 * 2 ^ places := Nat.mul_le_mul_left _ (Nat.pow_le_pow_right (by decide) hfirst)
  have hsmall := roundDivEven_le (0x800000 + mantissa) (2 ^ places)
  refine ⟨fun _ => ⟨by omega, ?_⟩, fun hgreat => ?_⟩
  · rw [← Nat.zero_add (roundDivEven _ _), ← Nat.zero_mul (2 ^ 10)]
    exact encloses_round hasPrecision_units (by decide) (by omega) (.inl rfl) (.inl rfl) hnear
  · -- so few doublings do not lead to the greatest halves
    have hpower : 2 ^ s ≤ 2 ^ 111 := Nat.pow_le_pow_right (by decide) (by omega)
    have hless : (0x800000 + mantissa) * 2 ^ s ≤ 0x1000000 * 2 ^ 111 :=
      Nat.mul_le_mul (by omega) hpower
    omega

/-- In the normal halves the significand loses 13 places. -/
theorem isRounded_normal {k : Nat} (hk : k < 30) (hmantissa : mantissa < 0x800000) :
    IsRounded ((0x800000 + mantissa) * 2 ^ (k + 112))
      (k * 0x400 + roundDivEven (0x800000 + mantissa) (2 ^ 13)) := by
  have hnear := roundsTo_roundDivEven (0x800000 + mantissa) (Nat.two_pow_pos 13)
  have hgreat := div_le_roundDivEven (0x800000 + mantissa) (2 ^ 13)
  have hsmall := roundDivEven_le (0x800000 + mantissa) (2 ^ 13)
  generalize roundDivEven (0x800000 + mantissa) (2 ^ 13) = r at *
  have hplace : 2 ^ 13 * 2 ^ (k + 112) = 2 ^ 125 * 2 ^ k := by
    rw [← Nat.pow_add, ← Nat.pow_add]
    congr 1
    omega
  have hscaled := hnear.mul (Nat.two_pow_pos (k + 112))
  rw [hplace] at hscaled
  have hfloor : 2 ^ 10 * (2 ^ 125 * 2 ^ k) ≤ (0x800000 + mantissa) * 2 ^ (k + 112) := by
    rw [← hplace, ← Nat.mul_assoc]
    exact Nat.mul_le_mul_right _ (Nat.le_add_right _ _)
  have hencloses := encloses_round hasPrecision_units (by decide) (by omega) (.inr (by omega))
    (.inr hfloor) hscaled
  -- only the last doubling leads to the midpoint behind the greatest half
  have hinside : k < 29 → (0x800000 + mantissa) * 2 ^ (k + 112) < 65520 * 2 ^ 149 := fun hk => by
    have hpower : 2 ^ (k + 112) ≤ 2 ^ 140 := Nat.pow_le_pow_right (by decide) (by omega)
    have hless : (0x800000 + mantissa) * 2 ^ (k + 112) ≤ 0x1000000 * 2 ^ 140 :=
      Nat.mul_le_mul (by omega) hpower
    omega
  have hmidpoint : 65520 * 2 ^ 149 = 65520 * 2 ^ 8 * 2 ^ (29 + 112) := by decide
  have habove := hnear.above
  have hbelow := hnear.below
  have hstrict := hnear.strict
  clear hnear hscaled hfloor hplace
  refine ⟨fun hn => ⟨?_, hencloses⟩, fun hn => ?_⟩
  · by_cases hlast : k < 29
    · omega
    · obtain rfl : k = 29 := by omega
      rw [hmidpoint] at hn
      have hless := Nat.lt_of_mul_lt_mul_right hn
      clear hinside hmidpoint hencloses hn
      omega
  · obtain rfl : k = 29 := by
      by_contra hother
      exact Nat.not_le_of_lt (hinside (by omega)) hn
    rw [hmidpoint] at hn
    have hle := Nat.le_of_mul_le_mul_right hn (Nat.two_pow_pos _)
    clear hinside hmidpoint hencloses hn
    omega

theorem isRounded_great {n : Nat} (h : 65520 * 2 ^ 149 ≤ n) : IsRounded n 0x7c00 :=
  ⟨fun hless => absurd h (Nat.not_le_of_lt hless), fun _ => rfl⟩

theorem IsRounded.le {n r : Nat} (h : IsRounded n r) : r ≤ 0x7c00 := by
  rcases Nat.lt_or_ge n (65520 * 2 ^ 149) with hless | hgreat
  · exact Nat.le_of_lt (h.finite hless).1
  · exact Nat.le_of_eq (h.overflow hgreat)

/-! ## All exponents -/

/-- The value of a normal number is its significand behind the doublings of its exponent. -/
theorem units_normal (hmantissa : mantissa < 0x800000) (s : Nat) :
    Binary32.units ((s + 1) * 0x800000 + mantissa) = (0x800000 + mantissa) * 2 ^ s := by
  have hsplit : (s + 1) * 0x800000 + mantissa = s * 2 ^ 23 + (0x800000 + mantissa) := by omega
  rw [hsplit]
  exact Binary32.hasPrecision_units s _ (by omega) (.inr (by omega))

/-- Rounding a finite number does not leave the words, whatever its exponent. -/
theorem exists_isRounded {exponent : Nat} (hexponent : exponent < 0xff)
    (hmantissa : mantissa < 0x800000) :
    ∃ r, roundMagnitude? exponent mantissa = some r ∧
      IsRounded (Binary32.units (exponent * 0x800000 + mantissa)) r := by
  have hunbiased : Word.fitSigned? 32 ((exponent : Int) - 127) = some ((exponent : Int) - 127) :=
    Word.fitSigned?_eq_some (by omega) (by omega)
  have hbiased : Word.fitSigned? 32 ((exponent : Int) - 127 + 15) =
      some ((exponent : Int) - 127 + 15) :=
    Word.fitSigned?_eq_some (by omega) (by omega)
  simp only [roundMagnitude?, if_neg (Nat.ne_of_lt hexponent), hunbiased, hbiased,
    Option.bind_eq_bind, Option.bind_some, Option.pure_def]
  -- the exponent decides: too great, with a place for the leading bit, too small, or in between
  by_cases hgreat : 143 ≤ exponent
  · refine ⟨0x7c00, if_pos (by omega), isRounded_great ?_⟩
    calc 65520 * 2 ^ 149 ≤ Binary32.units (143 * 0x800000) := by decide
      _ ≤ _ := Binary32.strictMono_units.monotone (by omega)
  rw [if_neg (by omega)]
  by_cases hnormal : 113 ≤ exponent
  · obtain ⟨k, rfl⟩ : ∃ k, exponent = k + 112 + 1 := ⟨exponent - 113, by omega⟩
    have hplace : ((k + 112 + 1 : Nat) : Int) - 127 + 15 = ((k + 1 : Nat) : Int) := by omega
    rw [if_neg (by omega), hplace, roundNormal?_eq (by omega) hmantissa, units_normal hmantissa]
    exact ⟨_, rfl, isRounded_normal (by omega) hmantissa⟩
  rw [if_pos (by omega)]
  by_cases htiny : exponent ≤ 101
  · refine ⟨0, if_pos (by omega), isRounded_tiny ?_⟩
    have hless :
        Binary32.units (exponent * 0x800000 + mantissa) ≤ Binary32.units (102 * 0x800000) :=
      Binary32.strictMono_units.monotone (by omega)
    calc 2 * _ ≤ 2 * Binary32.units (102 * 0x800000) := Nat.mul_le_mul_left 2 hless
      _ ≤ 2 ^ 125 := by decide
  · obtain ⟨s, rfl⟩ : ∃ s, exponent = s + 1 := ⟨exponent - 1, by omega⟩
    have hplaces : 14 - (((s + 1 : Nat) : Int) - 127 + 15) = ((125 - s : Nat) : Int) := by omega
    rw [if_neg (by omega), roundSubnormal?_eq hmantissa hplaces (by omega) (by omega),
      units_normal hmantissa]
    exact ⟨_, rfl, isRounded_subnormal hmantissa (by omega) (by omega)⟩

end FragmentAssembly.Binary16
