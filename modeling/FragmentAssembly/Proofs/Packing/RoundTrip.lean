import FragmentAssembly.Proofs.Packing.Lane

/-!
# Unpacking and packing again

A lane is divided by its scale and multiplied by it again.  Both results are rounded, and each
rounding is off by one part in `2 ^ 24` at most, so the nearest integer is that of the lane.
-/

namespace FragmentAssembly.Packing

open Binary32

/-- The integer `k` is divided by `scale`, and the quotient `q` is multiplied by `scale`. -/
theorem error_of_scaled {x s q : Binary32} {k : Int} {scale : Nat} (hpos : 0 < scale)
    (hscale : scale < 2 ^ 24)
    (hx : x.isFinite = true) (hxunits : x.signedUnits = k * 2 ^ 149)
    (hs : s.isFinite = true) (hsunits : s.signedUnits = scale * 2 ^ 149)
    (hquotient : (x.div s).isFinite = true) (hq : q.orderKey = (x.div s).orderKey)
    (hproduct : (q.mul s).isFinite = true) :
    2 ^ 22 * ((q.mul s).signedUnits - k * 2 ^ 149).natAbs ≤ k.natAbs * 2 ^ 149 := by
  have hfinite : q.isFinite = true := by
    rw [isFinite_iff_orderKey] at hquotient ⊢
    rw [hq]
    exact hquotient
  rw [orderKey_div hx hs (by omega), hsunits, hxunits] at hq
  have habs : ((scale : Int) * 2 ^ 149).natAbs = scale * 2 ^ 149 := by omega
  rw [habs] at hq
  -- the quotient is not subnormal
  have hlarge : scale * 2 ^ 149 ∣ (k * 2 ^ 149 * 2 ^ 149).natAbs ∨
      2 ^ 23 * (scale * 2 ^ 149) ≤ (k * 2 ^ 149 * 2 ^ 149).natAbs := by
    by_cases hk : k = 0
    · left
      rw [hk]
      exact Nat.dvd_zero _
    · right
      omega
  have hdiv := signedUnits_error (by omega) hfinite hq hlarge
  have hmul := signedUnits_error (Nat.two_pow_pos 149) hproduct
    (orderKey_mul hfinite hs) (.inl ⟨q.signedUnits.natAbs * scale, by
      rw [Int.natAbs_mul, hsunits, habs]
      ring⟩)
  rw [hsunits] at hmul
  push_cast at hdiv hmul
  rw [← Int.mul_assoc] at hdiv hmul
  generalize q.signedUnits * (scale : Int) = t at hdiv hmul
  omega

/-- A quotient between those at the ends of the range is not clamped. -/
theorem orderKey_clamp_div {l u x s : Binary32} (hl : l.isFinite = true) (hu : u.isFinite = true)
    (hx : x.isFinite = true) (hs : s.isFinite = true) (hspos : 0 < s.signedUnits)
    (hless : Binary32.lt (l.div s) (u.div s) = true)
    (hge : l.signedUnits ≤ x.signedUnits) (hle : x.signedUnits ≤ u.signedUnits)
    (hlower : (l.div s).isFinite = true) (hupper : (u.div s).isFinite = true) :
    (x.div s).isFinite = true ∧
      ((x.div s).clamp (l.div s) (u.div s)).orderKey = (x.div s).orderKey := by
  have hkeys : ∀ {a b : Binary32}, a.isFinite = true → b.isFinite = true →
      a.signedUnits ≤ b.signedUnits → (a.div s).orderKey ≤ (b.div s).orderKey := by
    intro a b ha hb hunits
    rw [orderKey_div ha hs hspos, orderKey_div hb hs hspos]
    exact nearestKey_mono (by omega) (by omega)
  have hbelow := hkeys hl hx hge
  have habove := hkeys hx hu hle
  have hfinite := isFinite_of_between hlower hupper hbelow habove
  refine ⟨hfinite, ?_⟩
  rw [orderKey_clamp hless (not_isNaN_of_isFinite hfinite)]
  omega

theorem unsignedLane_ofUnsignedLane {scale n : Nat} (hpos : 0 < scale) (hscale : scale < 2 ^ 20)
    (hn : n ≤ scale) (hzero : Binary32.zero.div (ofNat scale) = .zero)
    (hone : (ofNat scale).div (ofNat scale) = .one)
    (hlower : (Binary32.mul .zero (ofNat scale)).isFinite = true)
    (hupper : (Binary32.mul .one (ofNat scale)).isFinite = true) :
    unsignedLane scale (ofUnsignedLane scale n) = n := by
  obtain ⟨hx, hxunits⟩ := signedUnits_ofNat (show n < 2 ^ 24 by omega)
  obtain ⟨hs, hsunits⟩ := signedUnits_ofNat (show scale < 2 ^ 24 by omega)
  have hless : Binary32.lt .zero .one = true := by decide
  have hnone : Binary32.zero.signedUnits = 0 := by decide
  have hclamp := orderKey_clamp_div (l := .zero) (u := ofNat scale) (x := ofNat n)
    (by decide) hs hx hs (by omega) (by rw [hzero, hone]; exact hless) (by omega) (by omega)
    (by rw [hzero]; decide) (by rw [hone]; decide)
  rw [hzero, hone] at hclamp
  have hkeeps : KeepsOrder .zero .one (Binary32.mul · (ofNat scale)) :=
    KeepsOrder.mul_right (by decide) (by decide) hs (by omega)
  have hbetween := clamp_between hless ((ofNat n).div (ofNat scale))
  have hproduct := hkeeps.isFinite hlower hupper hbetween.1 hbetween.2
  have herror := error_of_scaled hpos (by omega) hx hxunits hs hsunits hclamp.1 hclamp.2 hproduct
  rw [unsignedLane, ofUnsignedLane, roundToNat_eq maxWord hproduct, maxWord]
  omega

theorem signedByteLane_ofSignedByteLane {n : Nat} (hn : n < 2 ^ 8) :
    signedByteLane (ofSignedByteLane n) = n := by
  obtain ⟨ha, haunits⟩ := signedUnits_ofNat (show n < 2 ^ 24 by omega)
  obtain ⟨hs, hsunits⟩ := signedUnits_ofNat (show 127 < 2 ^ 24 by omega)
  obtain ⟨hb, hbunits⟩ := signedUnits_ofNat (show 128 < 2 ^ 24 by omega)
  have hoffset : (ofNat 128).neg.signedUnits = -128 * 2 ^ 149 := by decide
  -- the difference of two integers is exact
  obtain ⟨hx, hxunits⟩ : ((ofNat n).sub (ofNat 128)).isFinite = true ∧
      ((ofNat n).sub (ofNat 128)).signedUnits = ((n : Int) - 128) * 2 ^ 149 := by
    apply signedUnits_of_integer (by omega)
    rw [sub, orderKey_add ha (by decide), haunits, hoffset]
    congr 1
    omega
  have hless : Binary32.lt leastSigned .one = true := by decide
  have hleast : (ofNat 128).neg.div (ofNat 127) = leastSigned := rfl
  have hone : (ofNat 127).div (ofNat 127) = .one := by decide
  have hclamp := orderKey_clamp_div (l := (ofNat 128).neg) (u := ofNat 127)
    (by decide) hs hx hs (by omega) (by decide) (by omega) (by omega) (by decide) (by decide)
  rw [hleast, hone] at hclamp
  have hscaled : KeepsOrder leastSigned .one (Binary32.mul · (ofNat 127)) :=
    KeepsOrder.mul_right (by decide) (by decide) hs (by omega)
  have hshifted : KeepsOrder (Binary32.mul leastSigned (ofNat 127)) (Binary32.mul .one (ofNat 127))
      (Binary32.add · (ofNat 128)) :=
    KeepsOrder.add_right (by decide) (by decide) hb
  have hbetween := clamp_between hless (((ofNat n).sub (ofNat 128)).div (ofNat 127))
  have hproduct := hscaled.isFinite (by decide) (by decide) hbetween.1 hbetween.2
  have hsum := (hscaled.comp hshifted).isFinite (by decide) (by decide) hbetween.1 hbetween.2
  have hscaledError := error_of_scaled (by decide) (by decide) hx hxunits hs hsunits hclamp.1
    hclamp.2 hproduct
  have herror := signedUnits_error Nat.one_pos hsum (orderKey_add hproduct hb)
    (.inl (Nat.one_dvd _))
  rw [signedByteLane, ofSignedByteLane, roundToNat_eq maxWord hsum, maxWord]
  omega

/-- With every operation rounded to the nearest number, the integers of a packed word stay in their
lanes, grow with their components and hide nothing of the word that they were unpacked from. -/
theorem integer_lanes :
    (IsLane 16 .zero (unsignedLane 65535) ∧ IsLane 8 leastSigned signedByteLane ∧
      IsLane 8 .zero (unsignedLane 255)) ∧
    (∀ (v : Vec4) (c : Component),
      lane ((packUnsignedShorts v).get c) 16 0 = unsignedLane 65535 v.x ∧
      lane ((packUnsignedShorts v).get c) 16 1 = unsignedLane 65535 v.y) ∧
    (∀ (v : Vec4) (c k : Component),
      lane ((packSignedBytes v).get c) 8 k.toNat = signedByteLane (v.get k) ∧
      lane ((packUnsignedBytes v).get c) 8 k.toNat = unsignedLane 255 (v.get k)) ∧
    ∀ a : Binary32,
      packUnsignedShorts (unpackUnsignedShorts a) = Quad.replicate a ∧
      packSignedBytes (unpackSignedBytes a) = Quad.replicate a ∧
      packUnsignedBytes (unpackUnsignedBytes a) = Quad.replicate a := by
  refine ⟨⟨isLane_unsignedShort, isLane_signedByte, isLane_unsignedByte⟩, fun v c => ?_,
    fun v c k => ⟨?_, ?_⟩, fun a => ⟨?_, ?_, ?_⟩⟩
  · exact lane_ofPair (isLane_unsignedShort.lt v.x) (isLane_unsignedShort.lt v.y) c
  · have hlanes : ∀ j, (v.map signedByteLane).get j < 2 ^ 8 := fun j => by
      rw [Quad.get_map]
      exact isLane_signedByte.lt _
    rw [packSignedBytes, lane_ofBytes hlanes, Quad.get_map]
  · have hlanes : ∀ j, (v.map (unsignedLane 255)).get j < 2 ^ 8 := fun j => by
      rw [Quad.get_map]
      exact isLane_unsignedByte.lt _
    rw [packUnsignedBytes, lane_ofBytes hlanes, Quad.get_map]
  · -- an integer of a lane is a quotient that is rounded twice and comes back
    have hlane : ∀ k, unsignedLane 65535 (ofUnsignedLane 65535 (lane a 16 k)) = lane a 16 k :=
      fun k => unsignedLane_ofUnsignedLane (by decide) (by decide) (by rw [lane_eq]; omega)
        (by decide) (by decide) (by decide) (by decide)
    rw [packUnsignedShorts, unpackUnsignedShorts, repeatPair, hlane, hlane, ofPair_lanes]
  · have hbytes : ((bytes a).map ofSignedByteLane).map signedByteLane = bytes a :=
      Quad.ext_get fun c => by
        rw [Quad.get_map, Quad.get_map, signedByteLane_ofSignedByteLane (bytes_lt a c)]
    rw [packSignedBytes, unpackSignedBytes, hbytes, ofBytes_bytes]
  · have hbytes : ((bytes a).map (ofUnsignedLane 255)).map (unsignedLane 255) = bytes a :=
      Quad.ext_get fun c => by
        have hless := bytes_lt a c
        rw [Quad.get_map, Quad.get_map, unsignedLane_ofUnsignedLane (by decide) (by decide)
          (by omega) (by decide) (by decide) (by decide) (by decide)]
    rw [packUnsignedBytes, unpackUnsignedBytes, hbytes, ofBytes_bytes]

end FragmentAssembly.Packing
