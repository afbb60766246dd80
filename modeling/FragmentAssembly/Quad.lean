/-!
# Four-component values

Registers, swizzles, write masks and condition codes all have the four components `x`, `y`, `z`
and `w`.  A `Quad` is determined by what `get` reads from it, and every operation below is
characterised by its `get`.
-/

namespace FragmentAssembly

inductive Component where
  | x
  | y
  | z
  | w
deriving DecidableEq, Repr, Inhabited

namespace Component

def toNat : Component → Nat
  | x => 0
  | y => 1
  | z => 2
  | w => 3

def letter : Component → Char
  | x => 'x'
  | y => 'y'
  | z => 'z'
  | w => 'w'

def ofLetter? : Char → Option Component
  | 'x' => some x
  | 'y' => some y
  | 'z' => some z
  | 'w' => some w
  | _ => none

@[simp] theorem ofLetter?_letter (c : Component) : ofLetter? c.letter = some c := by
  cases c <;> rfl

end Component

structure Quad (α : Type) where
  x : α
  y : α
  z : α
  w : α
deriving DecidableEq, Repr, Inhabited

namespace Quad

variable {α β γ : Type}

def get (q : Quad α) : Component → α
  | .x => q.x
  | .y => q.y
  | .z => q.z
  | .w => q.w

def replicate (a : α) : Quad α :=
  ⟨a, a, a, a⟩

def ofFn (f : Component → α) : Quad α :=
  ⟨f .x, f .y, f .z, f .w⟩

def map (f : α → β) (q : Quad α) : Quad β :=
  ⟨f q.x, f q.y, f q.z, f q.w⟩

def zipWith (f : α → β → γ) (p : Quad α) (q : Quad β) : Quad γ :=
  ⟨f p.x q.x, f p.y q.y, f p.z q.z, f p.w q.w⟩

def toList (q : Quad α) : List α :=
  [q.x, q.y, q.z, q.w]

def all (p : α → Bool) (q : Quad α) : Bool :=
  p q.x && p q.y && p q.z && p q.w

def any (p : α → Bool) (q : Quad α) : Bool :=
  p q.x || p q.y || p q.z || p q.w

/-- The quad whose components are those of `q` that `places` names. -/
def select (q : Quad α) (places : Quad Component) : Quad α :=
  places.map q.get

theorem ext_get {p q : Quad α} (h : ∀ c, p.get c = q.get c) : p = q := by
  cases p
  cases q
  have hx := h .x
  have hy := h .y
  have hz := h .z
  have hw := h .w
  simp only [get] at hx hy hz hw
  simp only [hx, hy, hz, hw]

@[simp] theorem get_replicate (a : α) (c : Component) : (replicate a).get c = a := by
  cases c <;> rfl

@[simp] theorem get_ofFn (f : Component → α) (c : Component) : (ofFn f).get c = f c := by
  cases c <;> rfl

@[simp] theorem get_map (f : α → β) (q : Quad α) (c : Component) :
    (q.map f).get c = f (q.get c) := by
  cases c <;> rfl

@[simp] theorem get_zipWith (f : α → β → γ) (p : Quad α) (q : Quad β) (c : Component) :
    (zipWith f p q).get c = f (p.get c) (q.get c) := by
  cases c <;> rfl

@[simp] theorem get_select (q : Quad α) (places : Quad Component) (c : Component) :
    (q.select places).get c = q.get (places.get c) := by
  simp [select]

end Quad

/-- The component that each component of an operand is read from. -/
abbrev Swizzle := Quad Component

def Swizzle.identity : Swizzle :=
  ⟨.x, .y, .z, .w⟩

/-- The components that an instruction may write. -/
abbrev WriteMask := Quad Bool

end FragmentAssembly
