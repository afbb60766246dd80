import FragmentAssembly.Packing
import FragmentAssembly.Proofs.Binary16.Widening

/-!
# Packed halves

The two lanes of a word are unpacked and packed again on their own.  So the word comes back, with
the quiet bits of its signalling NaNs set.
-/

namespace FragmentAssembly.Packing

/-! ## Lanes -/

/-- The half in the low bits of a word. -/
def lowHalf (a : Binary32) : Binary16 :=
  ⟨a.bits.toUInt16⟩

/-- The half in the high bits of a word. -/
def highHalf (a : Binary32) : Binary16 :=
  ⟨(a.bits >>> 16).toUInt16⟩

theorem toNat_lowHalf (a : Binary32) : (lowHalf a).bits.toNat = a.bits.toNat % 0x10000 := by
  rw [lowHalf, UInt32.toNat_toUInt16]

theorem toNat_highHalf (a : Binary32) : (highHalf a).bits.toNat = a.bits.toNat / 0x10000 := by
  have hbits := a.bits.toNat_lt
  have hshift : (a.bits >>> 16).toNat = a.bits.toNat / 0x10000 := by
    rw [UInt32.toNat_shiftRight]
    exact Nat.shiftRight_eq_div_pow _ 16
  rw [highHalf, UInt32.toNat_toUInt16, hshift]
  omega

/-- Lanes that do not overlap are joined by an addition. -/
theorem or_shiftLeft {low width : Nat} (high : Nat) (h : low < 2 ^ width) :
    low ||| (high <<< width) = low + high * 2 ^ width := by
  rw [Nat.or_comm, ← Nat.shiftLeft_add_eq_or_of_lt h, Nat.shiftLeft_eq, Nat.add_comm]

theorem unpackHalves_eq (a : Binary32) :
    unpackHalves a = repeatPair (lowHalf a).toBinary32 (highHalf a).toBinary32 := by
  have hlane : ∀ k, lane a 16 k = a.bits.toNat / 2 ^ (16 * k) % 0x10000 := fun k => by
    rw [lane, Nat.shiftRight_eq_div_pow]
    rfl
  have hlow : UInt16.ofNat (lane a 16 0) = (lowHalf a).bits := by
    apply UInt16.toNat_inj.mp
    rw [toNat_lowHalf, hlane, UInt16.toNat_ofNat']
    omega
  have hhigh : UInt16.ofNat (lane a 16 1) = (highHalf a).bits := by
    have hbits := a.bits.toNat_lt
    apply UInt16.toNat_inj.mp
    rw [toNat_highHalf, hlane, UInt16.toNat_ofNat']
    omega
  dsimp only [unpackHalves]
  rw [hlow, hhigh]

/-! ## Quiet bits -/

/-- The bits that packing sets: the quiet bit of each lane with a signalling NaN. -/
def quietBits (a : Binary32) : UInt32 :=
  (if (lowHalf a).isSignalling then 0x00000200 else 0) |||
    if (highHalf a).isSignalling then 0x02000000 else 0

/-- A bit that is clear can be set by an addition. -/
theorem or_ite_eq {n place : Nat} {c : Bool} (h : c = true → n / 2 ^ place % 2 = 0) :
    n ||| (if c then 2 ^ place else 0) = n + if c then 2 ^ place else 0 := by
  cases c
  · exact Nat.or_zero n
  · exact Binary16.or_two_pow_eq (h rfl)

/-- The quiet bit of a signalling NaN is clear. -/
theorem quietBit_clear {h : Binary16} (hsignalling : h.isSignalling = true) :
    h.bits.toNat / 2 ^ 9 % 2 = 0 := by
  rw [Binary16.isSignalling, Bool.and_eq_true, decide_eq_true_eq, Binary16.mantissa_eq]
    at hsignalling
  omega

theorem toNat_or_quietBits (a : Binary32) :
    (a.bits ||| quietBits a).toNat =
      a.bits.toNat + (if (lowHalf a).isSignalling then 0x200 else 0) +
        if (highHalf a).isSignalling then 0x2000000 else 0 := by
  have hlow : (lowHalf a).isSignalling = true → a.bits.toNat / 2 ^ 9 % 2 = 0 := fun h => by
    have hclear := quietBit_clear h
    rw [toNat_lowHalf] at hclear
    omega
  have hhigh : (highHalf a).isSignalling = true →
      (a.bits.toNat + if (lowHalf a).isSignalling then 2 ^ 9 else 0) / 2 ^ 25 % 2 = 0 := fun h => by
    have hclear := quietBit_clear h
    rw [toNat_highHalf] at hclear
    -- setting the lower quiet bit does not carry
    split
    · have hlower := hlow ‹_›
      omega
    · omega
  rw [quietBits, ← UInt32.or_assoc, UInt32.toNat_or, UInt32.toNat_or, apply_ite UInt32.toNat,
    apply_ite UInt32.toNat]
  have hfirst := or_ite_eq hlow
  have hsecond := or_ite_eq hhigh
  rw [← hfirst] at hsecond
  exact hsecond.trans (congrArg (· + _) hfirst)

/-! ## The round trip -/

theorem packHalves_repeatPair (a : Binary32) :
    packHalves (repeatPair (lowHalf a).toBinary32 (highHalf a).toBinary32) =
      Quad.replicate ⟨a.bits ||| quietBits a⟩ := by
  have hlow := Binary16.toNat_bits_ofBinary32_toBinary32 (lowHalf a)
  have hhigh := Binary16.toNat_bits_ofBinary32_toBinary32 (highHalf a)
  have hall := toNat_or_quietBits a
  have hbound := (a.bits ||| quietBits a).toNat_lt
  rw [toNat_lowHalf] at hlow
  rw [toNat_highHalf] at hhigh
  -- the high lane is the higher half of all bits, its quiet bit included
  have hshifted : (if (highHalf a).isSignalling then 0x2000000 else 0) =
      (if (highHalf a).isSignalling then 0x200 else 0) * 0x10000 := by
    split <;> omega
  rw [hshifted] at hall
  have hword : UInt32.ofNat ((Binary16.ofBinary32 (lowHalf a).toBinary32).bits.toNat +
      (Binary16.ofBinary32 (highHalf a).toBinary32).bits.toNat * 2 ^ 16) =
        a.bits ||| quietBits a := by
    apply UInt32.toNat_inj.mp
    rw [UInt32.toNat_ofNat', hlow, hhigh, hall]
    omega
  simp only [packHalves, repeatPair, ofPair, or_shiftLeft _ (UInt16.toNat_lt _), ofWord, hword]

/-- Unpacking a word gives the values of its two halves, and packing them gives the word back with
the quiet bits of its signalling NaNs set.  No step on the way leaves its word, and the leading one
of a subnormal half is at most ten places away. -/
theorem packHalves_unpackHalves (a : Binary32) :
    (∃ x y, unpackHalves a = ⟨x, y, x, y⟩ ∧
      (lowHalf a).toBinary32? = some x ∧ Binary16.IsWidening (lowHalf a) x ∧
      (highHalf a).toBinary32? = some y ∧ Binary16.IsWidening (highHalf a) y) ∧
    (∀ mantissa, mantissa ≠ 0 → mantissa < 0x400 → ∃ steps, steps ≤ 10 ∧
      Binary16.normalize? 113 mantissa = some (113 - steps, mantissa * 2 ^ steps)) ∧
    packHalves (unpackHalves a) = Quad.replicate ⟨a.bits ||| quietBits a⟩ := by
  refine ⟨?_, fun mantissa hne hless => ?_, ?_⟩
  · obtain ⟨x, hx, hlow⟩ := Binary16.exists_isWidening (lowHalf a)
    obtain ⟨y, hy, hhigh⟩ := Binary16.exists_isWidening (highHalf a)
    refine ⟨x, y, ?_, hx, hlow, hy, hhigh⟩
    rw [unpackHalves_eq, Binary16.toBinary32, Binary16.toBinary32, hx, hy]
    rfl
  · obtain ⟨steps, hfew, hlow, hhigh⟩ := Binary16.exists_steps hne hless
    exact ⟨steps, hfew, Binary16.normalize?_eq steps (by omega) hlow hhigh⟩
  · rw [unpackHalves_eq, packHalves_repeatPair]

end FragmentAssembly.Packing
