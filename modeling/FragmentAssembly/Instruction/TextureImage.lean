/-!
# Texture images

A texture instruction names a texture unit and the target that the unit is sampled with.
-/

namespace FragmentAssembly

abbrev textureUnitCount : Nat := 16

abbrev TextureUnit := Fin textureUnitCount

inductive TextureTarget where
  | oneD
  | twoD
  | threeD
  | cube
  | rect
deriving DecidableEq, Repr, Inhabited

namespace TextureTarget

def all : List TextureTarget :=
  [oneD, twoD, threeD, cube, rect]

def name : TextureTarget → String
  | oneD => "1D"
  | twoD => "2D"
  | threeD => "3D"
  | cube => "CUBE"
  | rect => "RECT"

end TextureTarget

structure TextureImage where
  unit : TextureUnit
  target : TextureTarget
deriving DecidableEq, Repr

end FragmentAssembly
