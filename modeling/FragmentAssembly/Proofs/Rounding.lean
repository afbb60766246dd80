import FragmentAssembly.Binary32.Rounding
import Mathlib.Tactic.Ring

/-!
# Rounding to a binary format

The quotients that are rounded to a magnitude lie between the midpoints to its two neighbours, and
the midpoints themselves belong to the even one of two neighbours.  All this is the same for every
number of bits that a format keeps.
-/

namespace FragmentAssembly

/-! ## Rounding to an integer -/

/-- The quotient `n / d` is rounded to `r`: it is at most one half away, and less than one half if
`r` is odd. -/
structure RoundsTo (n d r : Nat) : Prop where
  below : 2 * n ≤ 2 * (r * d) + d
  above : 2 * (r * d) ≤ 2 * n + d
  strict : r % 2 = 1 → 2 * n < 2 * (r * d) + d ∧ 2 * (r * d) < 2 * n + d

theorem roundsTo_zero {n d : Nat} (h : 2 * n ≤ d) : RoundsTo n d 0 :=
  ⟨by omega, by omega, fun hodd => absurd hodd (by decide)⟩

theorem roundsTo_roundDivEven (n : Nat) {d : Nat} (hd : 0 < d) :
    RoundsTo n d (roundDivEven n d) := by
  have hdivision : n / d * d + n % d = n := Nat.div_add_mod' n d
  have hrest : n % d < d := Nat.mod_lt n hd
  have hnext : (n / d + 1) * d = n / d * d + d := Nat.succ_mul _ _
  unfold roundDivEven
  by_cases hlow : 2 * (n % d) < d
  · rw [if_pos hlow]
    constructor <;> omega
  · rw [if_neg hlow]
    by_cases hhigh : d < 2 * (n % d)
    · rw [if_pos hhigh]
      constructor <;> rw [hnext] <;> omega
    · rw [if_neg hhigh]
      -- a tie goes to the even neighbour
      rcases Nat.mod_two_eq_zero_or_one (n / d) with heven | hodd
      · rw [heven, Nat.add_zero]
        constructor <;> omega
      · rw [hodd]
        constructor <;> rw [hnext] <;> omega

theorem div_le_roundDivEven (n d : Nat) : n / d ≤ roundDivEven n d := by
  unfold roundDivEven
  split
  · exact Nat.le_refl _
  · split
    · exact Nat.le_succ _
    · exact Nat.le_add_right _ _

theorem roundDivEven_le (n d : Nat) : roundDivEven n d ≤ n / d + 1 := by
  unfold roundDivEven
  split
  · exact Nat.le_succ _
  · split
    · exact Nat.le_refl _
    · have hparity : n / d % 2 < 2 := Nat.mod_lt _ (by decide)
      omega

/-- The quotient can be expanded. -/
theorem RoundsTo.mul {n d r : Nat} (h : RoundsTo n d r) {c : Nat} (hc : 0 < c) :
    RoundsTo (n * c) (d * c) r := by
  obtain ⟨hbelow, habove, hstrict⟩ := h
  have hleft : 2 * (n * c) = 2 * n * c := (Nat.mul_assoc _ _ _).symm
  have hright : 2 * (r * (d * c)) = 2 * (r * d) * c := by ring
  constructor
  · rw [hleft, hright, ← Nat.add_mul]
    exact Nat.mul_le_mul_right c hbelow
  · rw [hleft, hright, ← Nat.add_mul]
    exact Nat.mul_le_mul_right c habove
  · intro hodd
    rw [hleft, hright, ← Nat.add_mul, ← Nat.add_mul]
    exact (hstrict hodd).imp (Nat.mul_lt_mul_of_pos_right · hc) (Nat.mul_lt_mul_of_pos_right · hc)

/-! ## Values of magnitudes -/

/-- The values of the magnitudes of a format, which keeps `p` bits after the leading one, in units
of the least positive one: a magnitude is built from a number of doublings and a significand. -/
def HasPrecision (p : Nat) (units : Nat → Nat) : Prop :=
  ∀ s r, r ≤ 2 * 2 ^ p → s = 0 ∨ 2 ^ p ≤ r → units (s * 2 ^ p + r) = r * 2 ^ s

theorem hasPrecision (p : Nat) : HasPrecision p fun m =>
    if m < 2 * 2 ^ p then m else (2 ^ p + m % 2 ^ p) <<< (m / 2 ^ p - 1) := by
  intro s r hr hs
  have hpos : 0 < 2 ^ p := Nat.two_pow_pos p
  dsimp only
  generalize 2 ^ p = one at *
  rcases Nat.lt_or_eq_of_le hr with hlt | rfl
  · by_cases hzero : s = 0
    · subst hzero
      rw [Nat.zero_mul, Nat.zero_add, if_pos hlt, Nat.pow_zero, Nat.mul_one]
    · have hsmall : one ≤ r := hs.resolve_left hzero
      have hsplit : s * one + r = r - one + (s + 1) * one := by
        rw [Nat.succ_mul]
        omega
      have hle : 2 * one ≤ (s + 1) * one := Nat.mul_le_mul_right one (by omega)
      rw [hsplit, if_neg (by omega), Nat.add_mul_mod_self_right, Nat.add_mul_div_right _ _ hpos,
        Nat.mod_eq_of_lt (by omega), Nat.div_eq_of_lt (by omega), Nat.zero_add,
        Nat.add_sub_cancel, Nat.add_sub_cancel' hsmall, Nat.shiftLeft_eq]
  · -- the significand has carried into the next doubling
    have hsplit : s * one + 2 * one = (s + 2) * one := (Nat.add_mul _ _ _).symm
    have hle : 2 * one ≤ (s + 2) * one := Nat.mul_le_mul_right one (by omega)
    rw [hsplit, if_neg (Nat.not_lt.mpr hle), Nat.mul_mod_left, Nat.mul_div_cancel _ hpos,
      Nat.shiftLeft_eq, Nat.add_zero, show s + 2 - 1 = s + 1 from rfl, Nat.pow_succ]
    ring

/-- Every magnitude is built so. -/
theorem exists_significand (p m : Nat) :
    ∃ s r, m = s * 2 ^ p + r ∧ r < 2 * 2 ^ p ∧ (s = 0 ∨ 2 ^ p ≤ r) := by
  have hpos : 0 < 2 ^ p := Nat.two_pow_pos p
  generalize 2 ^ p = one at *
  by_cases h : m < 2 * one
  · exact ⟨0, m, by omega, h, .inl rfl⟩
  · have hdivision : m / one * one + m % one = m := Nat.div_add_mod' m one
    have hrest : m % one < one := Nat.mod_lt m hpos
    have hquotient : m / one - 1 + 1 = m / one := by
      have htwo : 2 ≤ m / one := (Nat.le_div_iff_mul_le hpos).mpr (Nat.not_lt.mp h)
      omega
    refine ⟨m / one - 1, one + m % one, ?_, by omega, .inr (by omega)⟩
    rw [← Nat.add_assoc, ← Nat.succ_mul, Nat.succ_eq_add_one, hquotient, hdivision]

namespace HasPrecision

variable {p : Nat} {units : Nat → Nat}

/-- Greater magnitudes have greater values. -/
theorem strictMono (h : HasPrecision p units) : StrictMono units := by
  refine strictMono_nat_of_lt_succ fun m => ?_
  obtain ⟨s, r, rfl, hr, hs⟩ := exists_significand p m
  rw [Nat.add_assoc, h s r (Nat.le_of_lt hr) hs, h s (r + 1) hr (hs.imp_right Nat.le_succ_of_le)]
  exact Nat.mul_lt_mul_of_pos_right (Nat.lt_succ_self r) (Nat.two_pow_pos s)

theorem zero (h : HasPrecision p units) : units 0 = 0 := by
  have hzero := h 0 0 (Nat.zero_le _) (.inl rfl)
  rwa [Nat.zero_mul, Nat.zero_mul] at hzero

/-- The step to the next magnitude is not less than that to the significand. -/
theorem le_succ (h : HasPrecision p units) {s r : Nat} (hr : r ≤ 2 * 2 ^ p)
    (hs : s = 0 ∨ 2 ^ p ≤ r) : (r + 1) * 2 ^ s ≤ units (s * 2 ^ p + r + 1) := by
  rcases Nat.lt_or_eq_of_le hr with hlt | rfl
  · rw [Nat.add_assoc, h s (r + 1) hlt (hs.imp_right Nat.le_succ_of_le)]
  · have hcarry : s * 2 ^ p + 2 * 2 ^ p + 1 = (s + 1) * 2 ^ p + (2 ^ p + 1) := by ring
    have hpos := Nat.two_pow_pos p
    rw [hcarry, h (s + 1) (2 ^ p + 1) (by omega) (.inr (Nat.le_succ _)), Nat.pow_succ]
    calc (2 * 2 ^ p + 1) * 2 ^ s ≤ (2 * 2 ^ p + 2) * 2 ^ s :=
          Nat.mul_le_mul_right _ (Nat.le_succ _)
      _ = (2 ^ p + 1) * (2 ^ s * 2) := by ring

/-- The magnitude before has the same step, unless it has a doubling less. -/
theorem pred (h : HasPrecision p units) {s r : Nat} (hr : r < 2 * 2 ^ p)
    (hs : s = 0 ∨ 2 ^ p ≤ r) : units (s * 2 ^ p + (r + 1) - 1) = r * 2 ^ s := by
  rw [← Nat.add_assoc, Nat.add_sub_cancel, h s r (Nat.le_of_lt hr) hs]

end HasPrecision

/-! ## Midpoints -/

/-- The quotient `n / d` lies between the midpoints to the neighbours of `m`, or on one of them if
`m` is even. -/
structure Encloses (units : Nat → Nat) (m n d : Nat) : Prop where
  lower : (units (m - 1) + units m) * d ≤ 2 * n
  upper : 2 * n ≤ (units m + units (m + 1)) * d
  strict : m % 2 = 1 → (units (m - 1) + units m) * d < 2 * n ∧
    2 * n < (units m + units (m + 1)) * d

section Enclosed

variable {p : Nat} {units : Nat → Nat} {m n d : Nat}

/-- The enclosed quotient can be expanded. -/
theorem encloses_mul {c : Nat} (hc : 0 < c) :
    Encloses units m (c * n) (c * d) ↔ Encloses units m n d := by
  have hlower : ∀ u, u * (c * d) ≤ 2 * (c * n) ↔ u * d ≤ 2 * n := fun u => by
    rw [Nat.mul_left_comm u, Nat.mul_left_comm 2, Nat.mul_le_mul_left_iff hc]
  have hupper : ∀ u, 2 * (c * n) ≤ u * (c * d) ↔ 2 * n ≤ u * d := fun u => by
    rw [Nat.mul_left_comm u, Nat.mul_left_comm 2, Nat.mul_le_mul_left_iff hc]
  constructor
  · rintro ⟨h, h', hstrict⟩
    simp only [← Nat.not_le, hlower, hupper] at h h' hstrict
    exact ⟨h, h', by simpa only [← Nat.not_le] using hstrict⟩
  · rintro ⟨h, h', hstrict⟩
    refine ⟨(hlower _).mpr h, (hupper _).mpr h', ?_⟩
    simpa only [← Nat.not_le, hlower, hupper] using hstrict

/-- A magnitude encloses its own value. -/
theorem encloses_self (hmono : StrictMono units) (hzero : units 0 = 0) :
    Encloses units m (units m) 1 := by
  have hafter : units m < units (m + 1) := hmono (Nat.lt_succ_self m)
  cases m with
  | zero => exact ⟨by rw [hzero], by omega, fun h => nomatch h⟩
  | succ before =>
    have hbefore : units (before + 1 - 1) < units (before + 1) := hmono (Nat.lt_succ_self before)
    exact ⟨by omega, by omega, fun _ => by omega⟩

/-- Of two quotients, the greater one is enclosed by a magnitude that is not less. -/
theorem Encloses.mono {l n' : Nat} (hm : Encloses units m n d) (hl : Encloses units l n' d)
    (hn : n ≤ n') (hmono : StrictMono units) (hd : 0 < d) : m ≤ l := by
  by_contra hlt
  rw [Nat.not_le] at hlt
  have hfirst : units l ≤ units (m - 1) := hmono.monotone (by omega)
  have hsecond : units (l + 1) ≤ units m := hmono.monotone hlt
  have hupper := hl.upper
  have hlower := hm.lower
  have hsum : units l + units (l + 1) ≤ units (m - 1) + units m := Nat.add_le_add hfirst hsecond
  have hproduct := Nat.mul_le_mul_right d hsum
  -- the two intervals meet in a midpoint at most, which belongs to one of them only
  have heq : (units l + units (l + 1)) * d = (units (m - 1) + units m) * d := by omega
  have hsame : units l + units (l + 1) = units (m - 1) + units m :=
    Nat.eq_of_mul_eq_mul_right hd heq
  have hadjacent : l + 1 = m := hmono.injective (by omega)
  by_cases hodd : l % 2 = 1
  · have hstrict := (hl.strict hodd).2
    omega
  · have hstrict := (hm.strict (by omega)).1
    omega

/-- Only one magnitude encloses a quotient. -/
theorem Encloses.eq {l : Nat} (hl : Encloses units l n d) (hm : Encloses units m n d)
    (hmono : StrictMono units) (hd : 0 < d) : l = m :=
  Nat.le_antisymm (hl.mono hm (Nat.le_refl n) hmono hd) (hm.mono hl (Nat.le_refl n) hmono hd)

/-- No magnitude is nearer to a quotient than the one that encloses it, and if another one is as
near, then that one is odd and the enclosing one even. -/
theorem Encloses.nearest (h : Encloses units m n d) (hmono : StrictMono units) (hd : 0 < d)
    (l : Nat) :
    ((units m * d : Nat) - n : Int).natAbs ≤ ((units l * d : Nat) - n : Int).natAbs ∧
      (((units l * d : Nat) - n : Int).natAbs = ((units m * d : Nat) - n : Int).natAbs →
        l = m ∨ m % 2 = 0 ∧ l % 2 = 1) := by
  obtain ⟨hlower, hupper, hstrict⟩ := h
  rw [Nat.add_mul] at hlower hupper hstrict
  rw [Nat.add_mul] at hstrict
  rcases Nat.lt_trichotomy l m with hlt | rfl | hgt
  · have hbefore : units (m - 1) * d < units m * d :=
      Nat.mul_lt_mul_of_pos_right (hmono (by omega)) hd
    have hle : units l * d ≤ units (m - 1) * d :=
      Nat.mul_le_mul_right d (hmono.monotone (by omega))
    refine ⟨by omega, fun hsame => .inr ?_⟩
    -- a tie is one with the neighbour
    have htie : units l * d = units (m - 1) * d := by omega
    have hneighbour : l = m - 1 := hmono.injective (Nat.eq_of_mul_eq_mul_right hd htie)
    by_cases hodd : m % 2 = 1
    · have hinside := (hstrict hodd).1
      omega
    · omega
  · exact ⟨Nat.le_refl _, fun _ => .inl rfl⟩
  · have hafter : units m * d < units (m + 1) * d :=
      Nat.mul_lt_mul_of_pos_right (hmono (Nat.lt_succ_self m)) hd
    have hle : units (m + 1) * d ≤ units l * d := Nat.mul_le_mul_right d (hmono.monotone hgt)
    refine ⟨by omega, fun hsame => .inr ?_⟩
    have htie : units l * d = units (m + 1) * d := by omega
    have hneighbour : l = m + 1 := hmono.injective (Nat.eq_of_mul_eq_mul_right hd htie)
    by_cases hodd : m % 2 = 1
    · have hinside := (hstrict hodd).2
      omega
    · omega

/-- A quotient is enclosed by the magnitude that rounding to a significand gives. -/
theorem encloses_round (h : HasPrecision p units) (hp : 0 < p) {s r : Nat} (hr : r ≤ 2 * 2 ^ p)
    (hs : s = 0 ∨ 2 ^ p ≤ r) (hfloor : s = 0 ∨ 2 ^ p * (d * 2 ^ s) ≤ n)
    (hnear : RoundsTo n (d * 2 ^ s) r) : Encloses units (s * 2 ^ p + r) n d := by
  obtain ⟨hbelow, habove, hodd⟩ := hnear
  have hvalue := h s r hr hs
  have hparity : (s * 2 ^ p + r) % 2 = r % 2 := by
    obtain ⟨q, rfl⟩ := Nat.exists_eq_succ_of_ne_zero (Nat.ne_of_gt hp)
    rw [Nat.pow_succ, ← Nat.mul_assoc, Nat.mul_add_mod_self_right]
  have hupper : 2 * (r * (d * 2 ^ s)) + d * 2 ^ s ≤
      (units (s * 2 ^ p + r) + units (s * 2 ^ p + r + 1)) * d := by
    have hnext := h.le_succ hr hs
    calc 2 * (r * (d * 2 ^ s)) + d * 2 ^ s = (r * 2 ^ s + (r + 1) * 2 ^ s) * d := by ring
      _ ≤ _ := Nat.mul_le_mul_right d (by rw [hvalue]; exact Nat.add_le_add_left hnext _)
  -- the step from the magnitude before decides how far below the quotient can be
  by_cases hstep : s = 0 ∨ 2 ^ p < r
  · cases r with
    | zero =>
      obtain rfl : s = 0 := by
        have hpos := Nat.two_pow_pos p
        omega
      refine ⟨?_, Nat.le_trans hbelow hupper, fun h => by omega⟩
      have hzero : units (0 * 2 ^ p + 0) = 0 := by rw [hvalue, Nat.zero_mul]
      rw [Nat.zero_mul] at hzero ⊢
      rw [show 0 + 0 - 1 = 0 + 0 from rfl, hzero, Nat.zero_mul]
      exact Nat.zero_le _
    | succ before =>
      have hlower : (units (s * 2 ^ p + (before + 1) - 1) +
          units (s * 2 ^ p + (before + 1))) * d + d * 2 ^ s =
          2 * ((before + 1) * (d * 2 ^ s)) := by
        rw [hvalue, h.pred (by omega) (by omega)]
        ring
      refine ⟨by omega, by omega, fun h => ?_⟩
      have hstrict := hodd (by omega)
      omega
  · -- there it is half of the step behind, and the quotient is not below the magnitude
    obtain rfl : r = 2 ^ p := by omega
    have hn := hfloor.resolve_left (by omega)
    have hless : units (s * 2 ^ p + 2 ^ p - 1) < units (s * 2 ^ p + 2 ^ p) := by
      have hpos := Nat.two_pow_pos p
      exact h.strictMono (by omega)
    have hlower : (units (s * 2 ^ p + 2 ^ p - 1) + units (s * 2 ^ p + 2 ^ p)) * d ≤
        2 * (2 ^ p * (d * 2 ^ s)) := by
      calc _ ≤ (2 ^ p * 2 ^ s + 2 ^ p * 2 ^ s) * d := Nat.mul_le_mul_right d (by omega)
        _ = _ := by ring
    have heven : 2 ^ p % 2 = 0 := by
      obtain ⟨q, rfl⟩ := Nat.exists_eq_succ_of_ne_zero (Nat.ne_of_gt hp)
      rw [Nat.pow_succ, Nat.mul_mod_left]
    exact ⟨by omega, by omega, fun h => by omega⟩

/-- The doublings are chosen such that the significand has a bit more than are kept after its
leading one, or fewer if there are none. -/
theorem significand_bounds (p q : Nat) {s : Nat} (hs : Nat.log2 q - p = s) :
    q / 2 ^ s < 2 * 2 ^ p ∧ (s = 0 ∨ 2 ^ p ≤ q / 2 ^ s) := by
  constructor
  · have hbits : q < 2 ^ (p + s + 1) := by
      apply Nat.lt_of_lt_of_le Nat.lt_log2_self
      exact Nat.pow_le_pow_right (by decide) (by omega)
    rw [Nat.div_lt_iff_lt_mul (Nat.two_pow_pos s)]
    calc q < 2 ^ (p + s + 1) := hbits
      _ = 2 * 2 ^ p * 2 ^ s := by ring
  · by_cases hzero : s = 0
    · exact .inl hzero
    · right
      have hne : q ≠ 0 := by
        rintro rfl
        exact hzero (by rw [← hs, Nat.log2_zero, Nat.zero_sub])
      have hleast : 2 ^ (p + s) ≤ q := by
        have hexponent : p + s = Nat.log2 q := by omega
        rw [hexponent]
        exact Nat.log2_self_le hne
      rw [Nat.le_div_iff_mul_le (Nat.two_pow_pos s), ← Nat.pow_add]
      exact hleast

/-- The nearest magnitude is built from the rounded significand, unless that is beyond the limit. -/
theorem exists_rounded (p limit n : Nat) (hd : 0 < d) : ∃ s r,
    nearestMagnitude p limit n d = min (s * 2 ^ p + r) limit ∧ RoundsTo n (d * 2 ^ s) r ∧
      r ≤ 2 * 2 ^ p ∧ (s = 0 ∨ 2 ^ p ≤ r) ∧ (s = 0 ∨ 2 ^ p * (d * 2 ^ s) ≤ n) := by
  refine ⟨Nat.log2 (n / d) - p, roundDivEven n (d * 2 ^ (Nat.log2 (n / d) - p)), ?_⟩
  unfold nearestMagnitude
  dsimp only
  generalize hs : Nat.log2 (n / d) - p = s
  rw [Nat.shiftLeft_eq, Nat.shiftLeft_eq]
  have hd' : 0 < d * 2 ^ s := Nat.mul_pos hd (Nat.two_pow_pos s)
  obtain ⟨htop, hbottom⟩ := significand_bounds p (n / d) hs
  rw [Nat.div_div_eq_div_mul] at htop hbottom
  have hgreat := div_le_roundDivEven n (d * 2 ^ s)
  have hless := roundDivEven_le n (d * 2 ^ s)
  exact ⟨rfl, roundsTo_roundDivEven n hd', by omega, by omega,
    hbottom.imp_right fun hle => (Nat.le_div_iff_mul_le hd').mp hle⟩

/-- So it encloses the quotient, unless it is the limit. -/
theorem exists_encloses (h : HasPrecision p units) (hp : 0 < p) (hd : 0 < d) (limit n : Nat) :
    ∃ m, nearestMagnitude p limit n d = min m limit ∧ Encloses units m n d := by
  obtain ⟨s, r, hnearest, hround, hr, hs, hfloor⟩ := exists_rounded p limit n hd
  exact ⟨_, hnearest, encloses_round h hp hr hs hfloor hround⟩

/-- The nearest magnitude is the one that encloses the quotient. -/
theorem nearestMagnitude_eq (h : HasPrecision p units) (hp : 0 < p) (hd : 0 < d) {limit : Nat}
    (hm : m < limit) (hencloses : Encloses units m n d) : nearestMagnitude p limit n d = m := by
  obtain ⟨l, hnearest, hl⟩ := exists_encloses h hp hd limit n
  rw [hnearest, hl.eq hencloses h.strictMono hd]
  exact Nat.min_eq_left (Nat.le_of_lt hm)

/-- A greater quotient does not have a lesser nearest magnitude. -/
theorem nearestMagnitude_mono (h : HasPrecision p units) (hp : 0 < p) (hd : 0 < d) (limit : Nat)
    {n' : Nat} (hn : n ≤ n') : nearestMagnitude p limit n d ≤ nearestMagnitude p limit n' d := by
  obtain ⟨m, hm, hencloses⟩ := exists_encloses h hp hd limit n
  obtain ⟨l, hl, hencloses'⟩ := exists_encloses h hp hd limit n'
  have hle : m ≤ l := hencloses.mono hencloses' hn h.strictMono hd
  rw [hm, hl]
  omega

/-- An integer is rounded to itself. -/
theorem RoundsTo.eq_of_dvd {r : Nat} (h : RoundsTo n d r) (hd : 0 < d) (hdvd : d ∣ n) :
    r * d = n := by
  obtain ⟨k, rfl⟩ := hdvd
  obtain ⟨hbelow, habove, -⟩ := h
  rw [Nat.mul_comm d k] at hbelow habove ⊢
  -- otherwise they would be one apart at least
  rcases Nat.lt_trichotomy r k with hlt | heq | hgt
  · have hstep : (r + 1) * d ≤ k * d := Nat.mul_le_mul_right d hlt
    rw [Nat.succ_mul] at hstep
    omega
  · rw [heq]
  · have hstep : (k + 1) * d ≤ r * d := Nat.mul_le_mul_right d hgt
    rw [Nat.succ_mul] at hstep
    omega

/-- Behind the first doubling, and for integers, the nearest magnitude is off by a share of one
half of a place at most. -/
theorem nearestMagnitude_error (h : HasPrecision p units) (hd : 0 < d) {limit : Nat}
    (hlimit : nearestMagnitude p limit n d < limit) (hn : d ∣ n ∨ 2 ^ p * d ≤ n) :
    2 ^ (p + 1) * (units (nearestMagnitude p limit n d) * d) ≤ 2 ^ (p + 1) * n + n ∧
      2 ^ (p + 1) * n ≤ 2 ^ (p + 1) * (units (nearestMagnitude p limit n d) * d) + n := by
  obtain ⟨s, r, hnearest, hround, hr, hs, hfloor⟩ := exists_rounded p limit n hd
  have hvalue : units (nearestMagnitude p limit n d) * d = r * (d * 2 ^ s) := by
    rw [show nearestMagnitude p limit n d = s * 2 ^ p + r by omega, h s r hr hs]
    ring
  rw [hvalue]
  -- an integer below the first doubling is its own quotient, and has no error at all
  by_cases hexact : s = 0 ∧ d ∣ n
  · obtain ⟨rfl, hdvd⟩ := hexact
    rw [Nat.pow_zero, Nat.mul_one] at hround ⊢
    rw [hround.eq_of_dvd hd hdvd]
    omega
  · -- one half of the last place is small beside the quotient
    have hplace : 2 ^ p * (d * 2 ^ s) ≤ n := by
      rcases hfloor with rfl | hle
      · rw [Nat.pow_zero, Nat.mul_one]
        exact hn.resolve_left fun hdvd => hexact ⟨rfl, hdvd⟩
      · exact hle
    obtain ⟨hbelow, habove, -⟩ := hround
    have hbelow' : 2 * (2 ^ p * n) ≤ 2 * (2 ^ p * (r * (d * 2 ^ s))) + 2 ^ p * (d * 2 ^ s) := by
      have hscaled := Nat.mul_le_mul_left (2 ^ p) hbelow
      rwa [Nat.mul_add, Nat.mul_left_comm, Nat.mul_left_comm (2 ^ p) 2] at hscaled
    have habove' : 2 * (2 ^ p * (r * (d * 2 ^ s))) ≤ 2 * (2 ^ p * n) + 2 ^ p * (d * 2 ^ s) := by
      have hscaled := Nat.mul_le_mul_left (2 ^ p) habove
      rwa [Nat.mul_add, Nat.mul_left_comm, Nat.mul_left_comm (2 ^ p) 2] at hscaled
    rw [Nat.pow_succ', Nat.mul_assoc, Nat.mul_assoc]
    omega

end Enclosed

end FragmentAssembly
