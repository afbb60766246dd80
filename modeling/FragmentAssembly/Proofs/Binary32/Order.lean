import FragmentAssembly.Binary32.Arithmetic
import FragmentAssembly.Proofs.Binary32.Value

/-!
# Order of binary32 numbers

An operation on finite numbers rounds the exact result once, and rounding keeps the order.  So the
key of a result is that of an exact quotient, and it grows with the quotient.
-/

namespace FragmentAssembly.Binary32

variable {a b : Binary32}

/-! ## Keys -/

theorem natAbs_orderKey (a : Binary32) : a.orderKey.natAbs = a.magnitude := by
  rw [orderKey]
  cases a.isNegative
  · rw [if_neg Bool.false_ne_true, Int.natAbs_natCast]
  · rw [if_pos rfl, Int.natAbs_neg, Int.natAbs_natCast]

theorem isFinite_iff_orderKey : a.isFinite = true ↔ a.orderKey.natAbs < infinityMagnitude := by
  rw [isFinite, decide_eq_true_eq, natAbs_orderKey]

theorem not_isNaN_of_isFinite (h : a.isFinite = true) : a.isNaN = false := by
  rw [isFinite, decide_eq_true_eq] at h
  rw [isNaN, decide_eq_false_iff_not]
  omega

theorem not_isInfinite_of_isFinite (h : a.isFinite = true) : a.isInfinite = false := by
  rw [isFinite, decide_eq_true_eq] at h
  rw [isInfinite, decide_eq_false_iff_not]
  omega

/-- The value can be told from the key; the sign of a zero cannot. -/
theorem signedUnits_eq (a : Binary32) : a.signedUnits =
    if a.orderKey < 0 then -(units a.orderKey.natAbs : Int) else units a.orderKey.natAbs := by
  have hzero : units 0 = 0 := rfl
  rw [natAbs_orderKey, signedUnits, orderKey]
  cases a.isNegative
  · rw [if_neg Bool.false_ne_true, if_neg Bool.false_ne_true, if_neg (by omega)]
  · rw [if_pos rfl, if_pos rfl]
    by_cases hm : a.magnitude = 0
    · rw [hm, hzero]
      rfl
    · rw [if_pos (by omega)]

/-- Numbers with greater keys have greater values. -/
theorem signedUnits_mono (h : a.orderKey ≤ b.orderKey) : a.signedUnits ≤ b.signedUnits := by
  rw [signedUnits_eq, signedUnits_eq]
  by_cases ha : a.orderKey < 0
  · rw [if_pos ha]
    by_cases hb : b.orderKey < 0
    · have hle : units b.orderKey.natAbs ≤ units a.orderKey.natAbs :=
        strictMono_units.monotone (by omega)
      rw [if_pos hb]
      omega
    · rw [if_neg hb]
      omega
  · have hle : units a.orderKey.natAbs ≤ units b.orderKey.natAbs :=
      strictMono_units.monotone (by omega)
    rw [if_neg ha, if_neg (by omega)]
    omega

theorem le_eq_true (h : le a b = true) :
    a.isNaN = false ∧ b.isNaN = false ∧ a.orderKey ≤ b.orderKey := by
  rw [le, Bool.and_eq_true, Bool.and_eq_true, Bool.not_eq_true', Bool.not_eq_true',
    decide_eq_true_eq] at h
  exact ⟨h.1.1, h.1.2, h.2⟩

/-! ## Rounded quotients -/

/-- The key of the number that is nearest to `n / d` units of `2 ^ (-149)`. -/
def nearestKey (n : Int) (d : Nat) : Int :=
  if n < 0 then -(nearestMagnitude 23 infinityMagnitude n.natAbs d : Int)
  else nearestMagnitude 23 infinityMagnitude n.natAbs d

theorem nearestMagnitude_zero (p limit d : Nat) : nearestMagnitude p limit 0 d = 0 := by
  simp [nearestMagnitude, roundDivEven]

theorem natAbs_nearestKey (n : Int) (d : Nat) :
    (nearestKey n d).natAbs = nearestMagnitude 23 infinityMagnitude n.natAbs d := by
  rw [nearestKey]
  split
  · rw [Int.natAbs_neg, Int.natAbs_natCast]
  · rw [Int.natAbs_natCast]

theorem nearestKey_mono {d : Nat} (hd : 0 < d) {m n : Int} (h : m ≤ n) :
    nearestKey m d ≤ nearestKey n d := by
  have hmono : ∀ {k l : Nat}, k ≤ l → nearestMagnitude 23 infinityMagnitude k d ≤
      nearestMagnitude 23 infinityMagnitude l d :=
    nearestMagnitude_mono hasPrecision_units (by decide) hd infinityMagnitude
  rw [nearestKey, nearestKey]
  by_cases hm : m < 0
  · rw [if_pos hm]
    by_cases hn : n < 0
    · have hle := hmono (show n.natAbs ≤ m.natAbs by omega)
      rw [if_pos hn]
      omega
    · rw [if_neg hn]
      omega
  · have hle := hmono (show m.natAbs ≤ n.natAbs by omega)
    rw [if_neg hm, if_neg (by omega)]
    omega

theorem orderKey_ofRatio (negative : Bool) (n d : Nat) :
    (ofRatio negative n d).orderKey = nearestKey (if negative then -(n : Int) else n) d := by
  have hle : nearestMagnitude 23 infinityMagnitude n d ≤ 0x7f800000 := nearestMagnitude_le _ _ _ _
  rw [ofRatio, orderKey, isNegative_ofMagnitude, magnitude_ofMagnitude,
    Nat.mod_eq_of_lt (by omega), nearestKey]
  cases negative
  · rw [if_neg Bool.false_ne_true, if_neg Bool.false_ne_true, if_neg (by omega),
      Int.natAbs_natCast]
  · rw [if_pos rfl, if_pos rfl, Int.natAbs_neg, Int.natAbs_natCast]
    by_cases hn : n = 0
    · rw [hn, nearestMagnitude_zero]
      rfl
    · rw [if_pos (by omega)]

/-! ## Operations -/

theorem orderKey_mul (ha : a.isFinite = true) (hb : b.isFinite = true) :
    (mul a b).orderKey = nearestKey (a.signedUnits * b.signedUnits) (2 ^ 149) := by
  have hsign : (if (a.isNegative != b.isNegative) = true
      then -((units a.magnitude * units b.magnitude : Nat) : Int)
      else ((units a.magnitude * units b.magnitude : Nat) : Int)) =
        a.signedUnits * b.signedUnits := by
    rw [signedUnits, signedUnits]
    cases a.isNegative <;> cases b.isNegative <;> simp
  simp only [mul, not_isNaN_of_isFinite ha, not_isNaN_of_isFinite hb,
    not_isInfinite_of_isFinite ha, not_isInfinite_of_isFinite hb, Bool.or_self,
    Bool.false_eq_true, if_false]
  rw [orderKey_ofRatio, hsign]
  rfl

theorem orderKey_add (ha : a.isFinite = true) (hb : b.isFinite = true) :
    (add a b).orderKey = nearestKey (a.signedUnits + b.signedUnits) 1 := by
  simp only [add, not_isNaN_of_isFinite ha, not_isNaN_of_isFinite hb,
    not_isInfinite_of_isFinite ha, not_isInfinite_of_isFinite hb, Bool.or_self,
    Bool.false_eq_true, if_false]
  generalize a.signedUnits + b.signedUnits = sum
  by_cases hzero : sum = 0
  · rw [if_pos hzero, hzero, orderKey, magnitude_ofMagnitude]
    cases (ofMagnitude (a.isNegative && b.isNegative) 0).isNegative <;> rfl
  · rw [if_neg hzero, orderKey_ofRatio]
    congr 1
    by_cases hneg : sum < 0
    · rw [decide_eq_true hneg, if_pos rfl]
      omega
    · rw [decide_eq_false hneg, if_neg Bool.false_ne_true]
      omega

theorem orderKey_div (ha : a.isFinite = true) (hb : b.isFinite = true)
    (hunitsPos : 0 < b.signedUnits) :
    (div a b).orderKey = nearestKey (a.signedUnits * 2 ^ 149) b.signedUnits.natAbs := by
  have hpos : 0 < b.orderKey := by
    by_contra hle
    have hunits : b.signedUnits ≤ zero.signedUnits := signedUnits_mono (Int.not_lt.mp hle)
    exact absurd hunitsPos (Int.not_lt.mpr hunits)
  have hsign : b.isNegative = false := by
    rw [orderKey] at hpos
    cases h : b.isNegative
    · rfl
    · rw [h, if_pos rfl] at hpos
      omega
  -- with a positive divisor none of the special cases arises
  have hzero : b.isZero = false := by
    rw [isZero, decide_eq_false_iff_not, ← natAbs_orderKey]
    omega
  have hunits : b.signedUnits.natAbs = units b.magnitude := by
    rw [signedUnits, hsign, if_neg Bool.false_ne_true, Int.natAbs_natCast]
  simp only [div, not_isNaN_of_isFinite ha, not_isNaN_of_isFinite hb,
    not_isInfinite_of_isFinite ha, not_isInfinite_of_isFinite hb, hzero, hsign, Bool.or_self,
    Bool.false_eq_true, if_false, Bool.bne_false]
  rw [orderKey_ofRatio, hunits, Nat.shiftLeft_eq, signedUnits]
  congr 1
  cases a.isNegative
  · rw [if_neg Bool.false_ne_true, if_neg Bool.false_ne_true]
    push_cast
    rfl
  · rw [if_pos rfl, if_pos rfl]
    push_cast
    ring

theorem orderKey_max (ha : a.isNaN = false) (hb : b.isNaN = false) :
    (max a b).orderKey = Max.max a.orderKey b.orderKey := by
  simp only [max, lt, ha, hb, Bool.not_false, Bool.true_and, Bool.false_or, Bool.false_eq_true,
    if_false, decide_eq_true_eq]
  split <;> omega

theorem orderKey_min (ha : a.isNaN = false) (hb : b.isNaN = false) :
    (min a b).orderKey = Min.min a.orderKey b.orderKey := by
  simp only [min, lt, ha, hb, Bool.not_false, Bool.true_and, Bool.false_or, Bool.false_eq_true,
    if_false, decide_eq_true_eq]
  split <;> omega

/-- A number is rounded to an integer by its value alone. -/
theorem roundToNat_eq (limit : Nat) (h : a.isFinite = true) : a.roundToNat limit =
    Min.min limit ((2 * a.signedUnits + 2 ^ 149) / 2 ^ 150).toNat := by
  have hshift : (2 * units a.magnitude + (1 <<< 149)) >>> 150 =
      (2 * units a.magnitude + 2 ^ 149) / 2 ^ 150 := Nat.shiftRight_eq_div_pow _ 150
  rw [roundToNat, not_isNaN_of_isFinite h, Bool.false_or, signedUnits, hshift]
  cases a.isNegative
  · rw [if_neg Bool.false_ne_true, not_isInfinite_of_isFinite h, if_neg Bool.false_ne_true,
      if_neg Bool.false_ne_true]
    omega
  · rw [if_pos rfl, if_pos rfl]
    omega

theorem roundToNat_mono (limit : Nat) (ha : a.isFinite = true) (hb : b.isFinite = true)
    (h : a.orderKey ≤ b.orderKey) : a.roundToNat limit ≤ b.roundToNat limit := by
  have hunits := signedUnits_mono h
  rw [roundToNat_eq limit ha, roundToNat_eq limit hb]
  omega

/-! ## Ranges -/

section Range

variable {lower upper : Binary32}

/-- A number between finite ones is finite. -/
theorem isFinite_of_between (hlower : lower.isFinite = true) (hupper : upper.isFinite = true)
    (hge : lower.orderKey ≤ a.orderKey) (hle : a.orderKey ≤ upper.orderKey) :
    a.isFinite = true := by
  rw [isFinite_iff_orderKey] at hlower hupper ⊢
  omega

theorem clamp_of_isNaN (h : lt lower upper = true) (ha : a.isNaN = true) :
    a.clamp lower upper = lower := by
  have hlower : lower.isNaN = false := by
    rw [lt, Bool.and_eq_true, Bool.and_eq_true, Bool.not_eq_true'] at h
    exact h.1.1
  rw [clamp, max, if_pos ha, min, hlower, if_neg Bool.false_ne_true, h, Bool.or_true, if_pos rfl]

theorem orderKey_clamp (h : lt lower upper = true) (ha : a.isNaN = false) :
    (a.clamp lower upper).orderKey =
      Min.min (Max.max a.orderKey lower.orderKey) upper.orderKey := by
  rw [lt, Bool.and_eq_true, Bool.and_eq_true, Bool.not_eq_true', Bool.not_eq_true'] at h
  obtain ⟨⟨hlower, hupper⟩, -⟩ := h
  have hmax : (max a lower).isNaN = false := by
    rw [max, if_neg (by rw [ha]; decide)]
    split
    · exact ha
    · exact hlower
  rw [clamp, orderKey_min hmax hupper, orderKey_max ha hlower]

theorem clamp_between (h : lt lower upper = true) (a : Binary32) :
    lower.orderKey ≤ (a.clamp lower upper).orderKey ∧
      (a.clamp lower upper).orderKey ≤ upper.orderKey := by
  have hless : lower.orderKey < upper.orderKey := by
    rw [lt, Bool.and_eq_true, decide_eq_true_eq] at h
    exact h.2
  cases ha : a.isNaN
  · rw [orderKey_clamp h ha]
    omega
  · rw [clamp_of_isNaN h ha]
    omega

/-- The results of `f` are in the order of the numbers from `lower` to `upper`. -/
def KeepsOrder (lower upper : Binary32) (f : Binary32 → Binary32) : Prop :=
  ∀ a b, lower.orderKey ≤ a.orderKey → a.orderKey ≤ b.orderKey → b.orderKey ≤ upper.orderKey →
    (f a).orderKey ≤ (f b).orderKey

namespace KeepsOrder

variable {f g : Binary32 → Binary32}

theorem isFinite (h : KeepsOrder lower upper f) (hlower : (f lower).isFinite = true)
    (hupper : (f upper).isFinite = true) (hge : lower.orderKey ≤ a.orderKey)
    (hle : a.orderKey ≤ upper.orderKey) : (f a).isFinite = true :=
  isFinite_of_between hlower hupper (h lower a (Int.le_refl _) hge hle)
    (h a upper hge hle (Int.le_refl _))

theorem comp (hf : KeepsOrder lower upper f) (hg : KeepsOrder (f lower) (f upper) g) :
    KeepsOrder lower upper fun a => g (f a) := by
  intro a b ha hab hb
  have hlower := hf lower a (Int.le_refl _) ha (Int.le_trans hab hb)
  have hupper := hf b upper (Int.le_trans ha hab) hb (Int.le_refl _)
  exact hg (f a) (f b) hlower (hf a b ha hab hb) hupper

variable (hlower : lower.isFinite = true) (hupper : upper.isFinite = true)
include hlower hupper

theorem mul_right {c : Binary32} (hc : c.isFinite = true) (hpos : 0 ≤ c.signedUnits) :
    KeepsOrder lower upper (mul · c) := by
  intro a b ha hab hb
  have hfinite := isFinite_of_between hlower hupper ha (Int.le_trans hab hb)
  have hfinite' := isFinite_of_between hlower hupper (Int.le_trans ha hab) hb
  have hproducts := Int.mul_le_mul_of_nonneg_right (signedUnits_mono hab) hpos
  show (mul a c).orderKey ≤ (mul b c).orderKey
  rw [orderKey_mul hfinite hc, orderKey_mul hfinite' hc]
  exact nearestKey_mono (Nat.two_pow_pos 149) hproducts

theorem add_right {c : Binary32} (hc : c.isFinite = true) : KeepsOrder lower upper (add · c) := by
  intro a b ha hab hb
  have hfinite := isFinite_of_between hlower hupper ha (Int.le_trans hab hb)
  have hfinite' := isFinite_of_between hlower hupper (Int.le_trans ha hab) hb
  have hsums := Int.add_le_add_right (signedUnits_mono hab) c.signedUnits
  show (add a c).orderKey ≤ (add b c).orderKey
  rw [orderKey_add hfinite hc, orderKey_add hfinite' hc]
  exact nearestKey_mono Nat.one_pos hsums

end KeepsOrder

end Range

/-! ## Exact and nearly exact results -/

/-- A result that is nearest to an integer below `2 ^ 24` has its value. -/
theorem signedUnits_of_integer {k : Int} (hk : k.natAbs < 2 ^ 24)
    (h : a.orderKey = nearestKey (k * 2 ^ 149) 1) :
    a.isFinite = true ∧ a.signedUnits = k * 2 ^ 149 := by
  have habs : (k * 2 ^ 149).natAbs = k.natAbs * 2 ^ 149 := Int.natAbs_mul _ _
  have hkey : a.orderKey.natAbs = nearestMagnitude 23 infinityMagnitude (k.natAbs * 2 ^ 149) 1 := by
    rw [h, natAbs_nearestKey, habs]
  obtain ⟨s, r, hnearest, hround, hr, hs, hfloor⟩ :=
    exists_rounded 23 infinityMagnitude (k.natAbs * 2 ^ 149) Nat.one_pos
  rw [Nat.one_mul] at hround hfloor
  -- the significand keeps all the bits of the integer
  have hplaces : s ≤ 149 := by
    by_contra hmore
    have hgreat : 2 ^ 150 ≤ 2 ^ s := Nat.pow_le_pow_right (by decide) (by omega)
    omega
  have hexact : r * 2 ^ s = k.natAbs * 2 ^ 149 :=
    hround.eq_of_dvd (Nat.two_pow_pos s) (Dvd.dvd.mul_left (pow_dvd_pow 2 hplaces) _)
  have hless : s * 2 ^ 23 + r < infinityMagnitude := by
    rw [infinityMagnitude]
    omega
  rw [Nat.min_eq_left (Nat.le_of_lt hless)] at hnearest
  rw [nearestKey, habs, hnearest] at h
  have hmagnitude : a.orderKey.natAbs = s * 2 ^ 23 + r := by
    split at h <;> omega
  have hunits : units a.orderKey.natAbs = k.natAbs * 2 ^ 149 := by
    rw [hmagnitude, hasPrecision_units s r hr hs, hexact]
  have hpositive : k ≠ 0 → 0 < r := by
    intro hne
    by_contra hzero
    obtain rfl : r = 0 := by omega
    rw [Nat.zero_mul] at hexact
    omega
  refine ⟨isFinite_iff_orderKey.mpr (by omega), ?_⟩
  rw [signedUnits_eq, hunits]
  by_cases hneg : k < 0
  · rw [if_pos (by omega)] at h
    rw [if_pos (by omega)]
    omega
  · rw [if_neg (by omega)] at h
    rw [if_neg (by omega)]
    omega

/-- Integers below `2 ^ 24` are numbers. -/
theorem signedUnits_ofNat {n : Nat} (hn : n < 2 ^ 24) :
    (ofNat n).isFinite = true ∧ (ofNat n).signedUnits = n * 2 ^ 149 := by
  apply signedUnits_of_integer (by omega)
  rw [ofNat, orderKey_ofRatio, if_neg Bool.false_ne_true, Nat.shiftLeft_eq]
  push_cast
  rfl

/-- Else the value of the nearest number is off by one part in `2 ^ 24` at most. -/
theorem signedUnits_error {n : Int} {d : Nat} (hd : 0 < d) (ha : a.isFinite = true)
    (h : a.orderKey = nearestKey n d) (hn : d ∣ n.natAbs ∨ 2 ^ 23 * d ≤ n.natAbs) :
    2 ^ 24 * (a.signedUnits * d - n).natAbs ≤ n.natAbs := by
  have hkey : a.orderKey.natAbs = nearestMagnitude 23 infinityMagnitude n.natAbs d := by
    rw [h, natAbs_nearestKey]
  rw [isFinite_iff_orderKey, hkey] at ha
  obtain ⟨hbelow, habove⟩ := nearestMagnitude_error hasPrecision_units hd ha hn
  have hzero : units 0 = 0 := rfl
  rw [signedUnits_eq, hkey]
  rw [nearestKey] at h
  generalize nearestMagnitude 23 infinityMagnitude n.natAbs d = m at *
  have hproduct : ((units m * d : Nat) : Int) = units m * d := Nat.cast_mul _ _
  by_cases hneg : n < 0
  · rw [if_pos hneg] at h
    by_cases hm : m = 0
    · rw [hm, hzero, Nat.zero_mul] at hbelow habove
      omega
    · rw [if_pos (by omega), Int.neg_mul, ← hproduct]
      omega
  · rw [if_neg hneg] at h
    rw [if_neg (by omega), ← hproduct]
    omega

end FragmentAssembly.Binary32
