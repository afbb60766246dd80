import FragmentAssembly.Binary32.Basic

/-!
# Elementary functions

Each function is evaluated in double precision and rounded once to binary32.
-/

namespace FragmentAssembly.Binary32

def toFloat (a : Binary32) : Float :=
  (Float32.ofBits a.bits).toFloat

def ofFloat (f : Float) : Binary32 :=
  if f.isNaN then nan else ⟨f.toFloat32.toBits⟩

def sin (a : Binary32) : Binary32 :=
  ofFloat a.toFloat.sin

def cos (a : Binary32) : Binary32 :=
  ofFloat a.toFloat.cos

def log2 (a : Binary32) : Binary32 :=
  ofFloat a.toFloat.log2

def pow (a b : Binary32) : Binary32 :=
  ofFloat (a.toFloat.pow b.toFloat)

def exp2 (a : Binary32) : Binary32 :=
  ofFloat ((2.0 : Float).pow a.toFloat)

end FragmentAssembly.Binary32
