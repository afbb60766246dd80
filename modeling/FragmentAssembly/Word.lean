/-!
# Words

Single steps of word arithmetic, on the numbers that the words stand for.  A step has no result if
the exact one is not a word of the given width.  So a computation in such steps that has a result
never left its words.
-/

namespace FragmentAssembly.Word

/-- `n`, if it is an unsigned word. -/
def fit? (width n : Nat) : Option Nat :=
  if n < 1 <<< width then some n else none

/-- `n`, if it is a signed word. -/
def fitSigned? (width : Nat) (n : Int) : Option Int :=
  let bound : Nat := 1 <<< (width - 1)
  if -(bound : Int) ≤ n ∧ n < bound then some n else none

/-- The unsigned word with the value of a signed one. -/
def ofSigned? (width : Nat) (n : Int) : Option Nat :=
  if 0 ≤ n then fit? width n.toNat else none

def add? (width a b : Nat) : Option Nat :=
  fit? width (a + b)

def sub? (a b : Nat) : Option Nat :=
  if b ≤ a then some (a - b) else none

/-- A word is not shifted by as many places as it has, and no bit is shifted out. -/
def shiftLeft? (width a places : Nat) : Option Nat :=
  if places < width then fit? width (a <<< places) else none

def shiftRight? (width a places : Nat) : Option Nat :=
  if places < width then some (a >>> places) else none

/-! ## Steps that stay in the words -/

variable {width a b n places : Nat} {k : Int}

theorem fit?_eq_some (h : n < 1 <<< width) : fit? width n = some n :=
  if_pos h

theorem fitSigned?_eq_some (hlow : -((1 <<< (width - 1) : Nat) : Int) ≤ k)
    (hhigh : k < (1 <<< (width - 1) : Nat)) : fitSigned? width k = some k :=
  if_pos ⟨hlow, hhigh⟩

theorem ofSigned?_eq_some (h : n < 1 <<< width) : ofSigned? width (n : Int) = some n := by
  rw [ofSigned?, if_pos (Int.natCast_nonneg n), Int.toNat_natCast, fit?_eq_some h]

theorem add?_eq_some (h : a + b < 1 <<< width) : add? width a b = some (a + b) :=
  fit?_eq_some h

theorem sub?_eq_some (h : b ≤ a) : sub? a b = some (a - b) :=
  if_pos h

theorem shiftLeft?_eq_some (hplaces : places < width) (h : a <<< places < 1 <<< width) :
    shiftLeft? width a places = some (a <<< places) := by
  rw [shiftLeft?, if_pos hplaces, fit?_eq_some h]

theorem shiftRight?_eq_some (h : places < width) :
    shiftRight? width a places = some (a >>> places) :=
  if_pos h

end FragmentAssembly.Word
