import FragmentAssembly.Binary16
import FragmentAssembly.Binary32.Arithmetic

/-!
# Packed values

A packed register holds one 32-bit word in each component, made of two halves, two shorts or four
bytes with the first component in the low bits.  The word is stored as it is, so a component may
look like a NaN.
-/

namespace FragmentAssembly.Packing

/-- The register whose components all have the bits of `word`. -/
def ofWord (word : Nat) : Vec4 :=
  Quad.replicate ⟨UInt32.ofNat word⟩

/-- The `width` bits of a packed component that start at bit `width * lane`. -/
def lane (a : Binary32) (width lane : Nat) : Nat :=
  (a.bits.toNat >>> (width * lane)) % (1 <<< width)

/-- Two lanes of 16 bits. -/
def ofPair (low high : Nat) : Vec4 :=
  ofWord (low ||| (high <<< 16))

/-- Four lanes of eight bits. -/
def ofBytes (lanes : Quad Nat) : Vec4 :=
  ofWord (lanes.x ||| (lanes.y <<< 8) ||| (lanes.z <<< 16) ||| (lanes.w <<< 24))

/-- The pair `low`, `high` in the first two and again in the last two components. -/
def repeatPair (low high : Binary32) : Vec4 :=
  ⟨low, high, low, high⟩

/-! ## Lanes -/

/-- The greatest word. -/
def maxWord : Nat :=
  0xffffffff

/-- The share of `scale` that a number between zero and one has; numbers outside are clamped. -/
def unsignedLane (scale : Nat) (a : Binary32) : Nat :=
  ((a.clamp .zero .one).mul (.ofNat scale)).roundToNat maxWord

/-- The least number that a signed byte lane tells apart, `-128 / 127`. -/
def leastSigned : Binary32 :=
  (Binary32.ofNat 128).neg.div (.ofNat 127)

/-- Signed bytes are stored with an offset of 128 in steps of `1 / 127`. -/
def signedByteLane (a : Binary32) : Nat :=
  (((a.clamp leastSigned .one).mul (.ofNat 127)).add (.ofNat 128)).roundToNat maxWord

def ofUnsignedLane (scale lane : Nat) : Binary32 :=
  (Binary32.ofNat lane).div (.ofNat scale)

def ofSignedByteLane (lane : Nat) : Binary32 :=
  ((Binary32.ofNat lane).sub (.ofNat 128)).div (.ofNat 127)

/-! ## Packing -/

def packHalves (v : Vec4) : Vec4 :=
  ofPair (Binary16.ofBinary32 v.x).bits.toNat (Binary16.ofBinary32 v.y).bits.toNat

def packUnsignedShorts (v : Vec4) : Vec4 :=
  ofPair (unsignedLane 65535 v.x) (unsignedLane 65535 v.y)

def packSignedBytes (v : Vec4) : Vec4 :=
  ofBytes (v.map signedByteLane)

def packUnsignedBytes (v : Vec4) : Vec4 :=
  ofBytes (v.map (unsignedLane 255))

/-! ## Unpacking -/

def unpackHalves (a : Binary32) : Vec4 :=
  let half (k : Nat) : Binary32 := (Binary16.mk (UInt16.ofNat (lane a 16 k))).toBinary32
  repeatPair (half 0) (half 1)

def unpackUnsignedShorts (a : Binary32) : Vec4 :=
  repeatPair (ofUnsignedLane 65535 (lane a 16 0)) (ofUnsignedLane 65535 (lane a 16 1))

def bytes (a : Binary32) : Quad Nat :=
  ⟨lane a 8 0, lane a 8 1, lane a 8 2, lane a 8 3⟩

def unpackSignedBytes (a : Binary32) : Vec4 :=
  (bytes a).map ofSignedByteLane

def unpackUnsignedBytes (a : Binary32) : Vec4 :=
  (bytes a).map (ofUnsignedLane 255)

end FragmentAssembly.Packing
