import FragmentAssembly.Binary32.Elementary
import FragmentAssembly.Packing
import FragmentAssembly.Program.Basic
import FragmentAssembly.Span

/-!
# What opcodes do

Most opcodes compute a vector from their operands alone.  The others look at the span, ask the
sampler, or end the run.
-/

namespace FragmentAssembly

/-- How a texture lookup finds its coordinates and its level of detail. -/
inductive LookupMode where
  /-- Both as given. -/
  | plain
  /-- The last coordinate is added to the level of detail. -/
  | biased
  /-- The level of detail comes from two more operands. -/
  | derivatives
  /-- The coordinates are divided by the last one. -/
  | projective
deriving DecidableEq, Repr

/-- A scalar is the first component of an operand. -/
inductive Computation where
  | constant (value : Vec4)
  | vector1 (f : Vec4 → Vec4)
  | vector2 (f : Vec4 → Vec4 → Vec4)
  | vector3 (f : Vec4 → Vec4 → Vec4 → Vec4)
  | scalar1 (f : Binary32 → Vec4)
  | scalar2 (f : Binary32 → Binary32 → Vec4)
  | derivative (axis : Axis)
  | lookup (mode : LookupMode)

inductive Action where
  | compute (c : Computation)
  | kill
  | halt

namespace Computation

/-! ## Arithmetic on vectors -/

def componentwise (f : Binary32 → Binary32 → Binary32) : Computation :=
  vector2 (Quad.zipWith f)

/-- One where the components are related, and zero elsewhere. -/
def setOn (related : Binary32 → Binary32 → Bool) : Computation :=
  componentwise fun a b => if related a b then .one else .zero

/-- A scalar function whose result goes to all components. -/
def broadcast (f : Binary32 → Binary32) : Computation :=
  scalar1 fun a => Quad.replicate (f a)

def dot3 (a b : Vec4) : Binary32 :=
  ((a.x.mul b.x).add (a.y.mul b.y)).add (a.z.mul b.z)

def dot4 (a b : Vec4) : Binary32 :=
  (dot3 a b).add (a.w.mul b.w)

def multiplyAdd (a b c : Vec4) : Vec4 :=
  Quad.zipWith Binary32.add (Quad.zipWith Binary32.mul a b) c

/-- The point between `c` and `b` that divides them as `a` says. -/
def interpolate (a b c : Vec4) : Vec4 :=
  Quad.zipWith Binary32.add (Quad.zipWith Binary32.mul a b)
    (Quad.zipWith (fun a c => (Binary32.one.sub a).mul c) a c)

def distance (a b : Vec4) : Vec4 :=
  ⟨.one, a.y.mul b.y, a.z, b.w⟩

/-- The reflection of `direction`; its last component is not meant to be stored. -/
def reflect (axis direction : Vec4) : Vec4 :=
  let scale := ((Binary32.ofNat 2).mul (dot3 axis direction)).div (dot3 axis axis)
  ⟨(scale.mul axis.x).sub direction.x, (scale.mul axis.y).sub direction.y,
    (scale.mul axis.z).sub direction.z, .zero⟩

/-- The greatest exponent of a specular coefficient, `128 - 1 / 256`. -/
def maxShine : Binary32 :=
  ⟨0x42fffe00⟩

/-- Diffuse and specular coefficients from two cosines and an exponent. -/
def light (a : Vec4) : Vec4 :=
  let diffuse := a.x.max .zero
  let shine := a.y.max .zero
  let exponent := a.w.clamp maxShine.neg maxShine
  ⟨.one, diffuse, if Binary32.lt .zero diffuse then shine.pow exponent else .zero, .one⟩

def transformPlane (a b c : Vec4) : Vec4 :=
  let row (start : Binary32) (p q : Binary32) : Binary32 :=
    (start.add (b.x.mul p)).add (b.y.mul q)
  ⟨row a.x c.x c.y, row a.y c.z c.w, row a.z c.x c.y, row a.w c.z c.w⟩

end Computation

def Opcode.action : Opcode → Action
  | add => .compute (.componentwise Binary32.add)
  | cos => .compute (.broadcast .cos)
  | ddx => .compute (.derivative .x)
  | ddy => .compute (.derivative .y)
  | dp3 => .compute (.vector2 fun a b => Quad.replicate (Computation.dot3 a b))
  | dp4 => .compute (.vector2 fun a b => Quad.replicate (Computation.dot4 a b))
  | dst => .compute (.vector2 Computation.distance)
  | ex2 => .compute (.broadcast .exp2)
  | flr => .compute (.vector1 (Quad.map .floor))
  | frc => .compute (.vector1 (Quad.map .fraction))
  | kil => .kill
  | lg2 => .compute (.broadcast .log2)
  | lit => .compute (.vector1 Computation.light)
  | lrp => .compute (.vector3 Computation.interpolate)
  | mad => .compute (.vector3 Computation.multiplyAdd)
  | max => .compute (.componentwise fun a b => if b.lt a then a else b)
  | min => .compute (.componentwise fun a b => if a.lt b then a else b)
  | mov => .compute (.vector1 id)
  | mul => .compute (.componentwise Binary32.mul)
  | pk2h => .compute (.vector1 Packing.packHalves)
  | pk2us => .compute (.vector1 Packing.packUnsignedShorts)
  | pk4b => .compute (.vector1 Packing.packSignedBytes)
  | pk4ub => .compute (.vector1 Packing.packUnsignedBytes)
  | pow => .compute (.scalar2 fun a b => Quad.replicate (a.pow b))
  | rcp => .compute (.broadcast .reciprocal)
  | rfl => .compute (.vector2 Computation.reflect)
  | rsq => .compute (.broadcast fun a => a.abs.sqrt.reciprocal)
  | seq => .compute (.setOn Binary32.eq)
  | sfl => .compute (.constant (Quad.replicate .zero))
  | sge => .compute (.setOn fun a b => b.le a)
  | sgt => .compute (.setOn fun a b => b.lt a)
  | sin => .compute (.broadcast .sin)
  | sle => .compute (.setOn Binary32.le)
  | slt => .compute (.setOn Binary32.lt)
  | sne => .compute (.setOn fun a b => !a.eq b)
  | str => .compute (.constant (Quad.replicate .one))
  | sub => .compute (.componentwise Binary32.sub)
  | tex => .compute (.lookup .plain)
  | txb => .compute (.lookup .biased)
  | txd => .compute (.lookup .derivatives)
  | txp => .compute (.lookup .projective)
  | up2h => .compute (.scalar1 Packing.unpackHalves)
  | up2us => .compute (.scalar1 Packing.unpackUnsignedShorts)
  | up4b => .compute (.scalar1 Packing.unpackSignedBytes)
  | up4ub => .compute (.scalar1 Packing.unpackUnsignedBytes)
  | x2d => .compute (.vector3 Computation.transformPlane)
  | halt => .halt

end FragmentAssembly
