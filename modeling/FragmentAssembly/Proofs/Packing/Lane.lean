import FragmentAssembly.Proofs.Packing
import FragmentAssembly.Proofs.Binary32.Order

/-!
# Lanes of integers

A component is clamped, scaled and rounded to an integer that fits into its lane, so a packed word
can be read lane by lane.  The roundings of a round trip move an integer by far less than one half.
-/

namespace FragmentAssembly.Packing

open Binary32

/-! ## Words -/

theorem ofBytes_eq {lanes : Quad Nat} (h : ∀ c, lanes.get c < 2 ^ 8) :
    ofBytes lanes = ofWord
      (lanes.x + lanes.y * 2 ^ 8 + lanes.z * 2 ^ 16 + lanes.w * 2 ^ 24) := by
  have hx : lanes.x < 2 ^ 8 := h .x
  have hy : lanes.y < 2 ^ 8 := h .y
  have hz : lanes.z < 2 ^ 8 := h .z
  rw [ofBytes, or_shiftLeft lanes.y hx, or_shiftLeft lanes.z (by omega),
    or_shiftLeft lanes.w (by omega)]

theorem lane_eq (a : Binary32) (width k : Nat) :
    lane a width k = a.bits.toNat / 2 ^ (width * k) % 2 ^ width := by
  rw [lane, Nat.shiftRight_eq_div_pow, Nat.shiftLeft_eq, Nat.one_mul]

theorem toNat_ofWord {word : Nat} (h : word < 2 ^ 32) (c : Component) :
    ((ofWord word).get c).bits.toNat = word := by
  rw [ofWord, Quad.get_replicate, UInt32.toNat_ofNat', Nat.mod_eq_of_lt h]

theorem ofWord_toNat (a : Binary32) : ofWord a.bits.toNat = Quad.replicate a := by
  rw [ofWord, UInt32.ofNat_toNat]

/-- No lane of a pair spills into the other one. -/
theorem lane_ofPair {low high : Nat} (hlow : low < 2 ^ 16) (hhigh : high < 2 ^ 16)
    (c : Component) :
    lane ((ofPair low high).get c) 16 0 = low ∧ lane ((ofPair low high).get c) 16 1 = high := by
  have hword := toNat_ofWord (show low + high * 2 ^ 16 < 2 ^ 32 by omega) c
  rw [lane_eq, lane_eq, ofPair, or_shiftLeft high hlow, hword]
  omega

/-- No byte spills into another one. -/
theorem lane_ofBytes {lanes : Quad Nat} (h : ∀ c, lanes.get c < 2 ^ 8) (c k : Component) :
    lane ((ofBytes lanes).get c) 8 k.toNat = lanes.get k := by
  have hx : lanes.x < 2 ^ 8 := h .x
  have hy : lanes.y < 2 ^ 8 := h .y
  have hz : lanes.z < 2 ^ 8 := h .z
  have hw : lanes.w < 2 ^ 8 := h .w
  have hword := toNat_ofWord (show lanes.x + lanes.y * 2 ^ 8 + lanes.z * 2 ^ 16 +
    lanes.w * 2 ^ 24 < 2 ^ 32 by omega) c
  rw [lane_eq, ofBytes_eq h, hword]
  cases k <;> simp only [Component.toNat, Quad.get] <;> omega

/-- A word is the pair of its two lanes. -/
theorem ofPair_lanes (a : Binary32) : ofPair (lane a 16 0) (lane a 16 1) = Quad.replicate a := by
  have hbits := a.bits.toNat_lt
  have hlow : lane a 16 0 < 2 ^ 16 := by
    rw [lane_eq]
    omega
  have hword : lane a 16 0 + lane a 16 1 * 2 ^ 16 = a.bits.toNat := by
    rw [lane_eq, lane_eq]
    omega
  rw [ofPair, or_shiftLeft _ hlow, hword, ofWord_toNat]

theorem bytes_lt (a : Binary32) (c : Component) : (bytes a).get c < 2 ^ 8 := by
  cases c <;> simp only [bytes, Quad.get, lane_eq] <;> omega

/-- A word is made of its four bytes. -/
theorem ofBytes_bytes (a : Binary32) : ofBytes (bytes a) = Quad.replicate a := by
  have hbits := a.bits.toNat_lt
  have hword : (bytes a).x + (bytes a).y * 2 ^ 8 + (bytes a).z * 2 ^ 16 + (bytes a).w * 2 ^ 24 =
      a.bits.toNat := by
    simp only [bytes, lane_eq]
    omega
  rw [ofBytes_eq (bytes_lt a), hword, ofWord_toNat]

/-! ## The integers of a lane -/

/-- `f` gives integers of `width` bits that grow with the number.  A NaN has that of `lower`. -/
structure IsLane (width : Nat) (lower : Binary32) (f : Binary32 → Nat) : Prop where
  lt : ∀ a, f a < 2 ^ width
  nan : ∀ a, a.isNaN = true → f a = f lower
  mono : ∀ a b, Binary32.le a b = true → f a ≤ f b

/-- A number is clamped, an operation that keeps the order follows, and the result is rounded. -/
theorem isLane_of_keepsOrder {lower upper : Binary32} {f : Binary32 → Binary32} {width : Nat}
    (hless : Binary32.lt lower upper = true) (hkeeps : KeepsOrder lower upper f)
    (hlower : (f lower).isFinite = true) (hupper : (f upper).isFinite = true)
    (hgreatest : (f upper).roundToNat maxWord < 2 ^ width) :
    IsLane width lower fun a => (f (a.clamp lower upper)).roundToNat maxWord := by
  have hfinite : ∀ a : Binary32, (f (a.clamp lower upper)).isFinite = true := fun a =>
    hkeeps.isFinite hlower hupper (clamp_between hless a).1 (clamp_between hless a).2
  have hnumber : lower.isNaN = false := by
    rw [Binary32.lt, Bool.and_eq_true, Bool.and_eq_true, Bool.not_eq_true'] at hless
    exact hless.1.1
  -- no number is clamped to the lower bound, so that is what the lane has for it
  have hself : (lower.clamp lower upper).orderKey = lower.orderKey := by
    have hbetween := clamp_between hless lower
    rw [orderKey_clamp hless hnumber] at hbetween ⊢
    omega
  have hround : ∀ a b : Binary32,
      (a.clamp lower upper).orderKey ≤ (b.clamp lower upper).orderKey →
        (f (a.clamp lower upper)).roundToNat maxWord ≤
          (f (b.clamp lower upper)).roundToNat maxWord := fun a b hle =>
    roundToNat_mono maxWord (hfinite a) (hfinite b)
      (hkeeps _ _ (clamp_between hless a).1 hle (clamp_between hless b).2)
  refine ⟨fun a => ?_, fun a ha => ?_, fun a b hle => ?_⟩
  · have hbetween := clamp_between hless a
    have hle := roundToNat_mono maxWord (hfinite a) hupper
      (hkeeps _ _ hbetween.1 hbetween.2 (Int.le_refl _))
    exact Nat.lt_of_le_of_lt hle hgreatest
  · apply Nat.le_antisymm
    · apply hround
      rw [clamp_of_isNaN hless ha, hself]
    · apply hround
      rw [clamp_of_isNaN hless ha, hself]
  · obtain ⟨ha, hb, hkey⟩ := le_eq_true hle
    apply hround
    rw [orderKey_clamp hless ha, orderKey_clamp hless hb]
    omega

theorem isLane_unsignedLane {scale width : Nat} (hscale : (ofNat scale).isFinite = true)
    (hpos : 0 ≤ (ofNat scale).signedUnits)
    (hlower : (Binary32.mul .zero (ofNat scale)).isFinite = true)
    (hupper : (Binary32.mul .one (ofNat scale)).isFinite = true)
    (hgreatest : (Binary32.mul .one (ofNat scale)).roundToNat maxWord < 2 ^ width) :
    IsLane width .zero (unsignedLane scale) := by
  have hkeeps : KeepsOrder .zero .one (Binary32.mul · (ofNat scale)) :=
    KeepsOrder.mul_right (by decide) (by decide) hscale hpos
  exact isLane_of_keepsOrder (f := (Binary32.mul · (ofNat scale))) (by decide) hkeeps hlower hupper
    hgreatest

theorem isLane_unsignedShort : IsLane 16 .zero (unsignedLane 65535) :=
  isLane_unsignedLane (by decide) (by decide) (by decide) (by decide) (by decide)

theorem isLane_unsignedByte : IsLane 8 .zero (unsignedLane 255) :=
  isLane_unsignedLane (by decide) (by decide) (by decide) (by decide) (by decide)

theorem isLane_signedByte : IsLane 8 leastSigned signedByteLane := by
  have hscaled : KeepsOrder leastSigned .one (Binary32.mul · (ofNat 127)) :=
    KeepsOrder.mul_right (by decide) (by decide) (by decide) (by decide)
  have hshifted : KeepsOrder (Binary32.mul leastSigned (ofNat 127)) (Binary32.mul .one (ofNat 127))
      (Binary32.add · (ofNat 128)) :=
    KeepsOrder.add_right (by decide) (by decide) (by decide)
  have hkeeps := hscaled.comp hshifted
  exact isLane_of_keepsOrder (f := fun a => Binary32.add (Binary32.mul a (ofNat 127)) (ofNat 128))
    (by decide) hkeeps (by decide) (by decide) (by decide)

end FragmentAssembly.Packing
