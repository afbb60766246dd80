import FragmentAssembly.Binary32.Arithmetic
import FragmentAssembly.Binary32.Elementary
import FragmentAssembly.Instruction.TextureImage

/-!
# Texture sampling

A sampler answers lookups.  Its answers may depend on the lookups that it has answered before,
which is why it is given all of them.
-/

namespace FragmentAssembly

structure Request where
  unit : TextureUnit
  target : TextureTarget
  coordinates : Vec4
  /-- The level of detail. -/
  lambda : Binary32
deriving DecidableEq, Repr

structure Sampler where
  /-- The answer to a lookup after earlier ones. -/
  answer : Array Request → Request → Vec4
  /-- Width and height of the base image of a unit. -/
  imageSize : Array Request → TextureUnit → Binary32 × Binary32

namespace Sampler

/-- One color for every lookup, and images of a single texel. -/
def solid (color : Vec4) : Sampler where
  answer _ _ := color
  imageSize _ _ := (.one, .one)

/-- One color for every lookup, or else the coordinates of the lookup. -/
def probe (color : Option Vec4) (width height : Binary32) : Sampler where
  answer _ request := color.getD request.coordinates
  imageSize _ _ := (width, height)

end Sampler

/-- The length of a step in texels along both axes of an image. -/
def texelDistance (step : Vec4) (width height : Binary32) : Binary32 :=
  let u := step.x.mul width
  let v := step.y.mul height
  ((u.mul u).add (v.mul v)).sqrt

/-- The level of detail at which neighbouring fragments are one texel apart. -/
def levelOfDetail (ddx ddy : Vec4) (width height : Binary32) : Binary32 :=
  ((texelDistance ddx width height).max (texelDistance ddy width height)).log2

end FragmentAssembly
