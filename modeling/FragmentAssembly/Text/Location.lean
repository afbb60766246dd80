import FragmentAssembly.Text.Token

/-!
# Locations

A place in a text is reported by line and column and by what is written there.  Here only a line
feed ends a line, and columns count characters.
-/

namespace FragmentAssembly

structure Location where
  line : Nat
  column : Nat
  /-- The text at the place, up to the end of the line and at most 20 characters. -/
  excerpt : String
deriving DecidableEq, Repr

namespace Location

/-- Splits a text after `bytes` bytes. -/
def splitAtByte (bytes : Nat) : List Char → List Char × List Char
  | [] => ([], [])
  | c :: cs =>
    if c.utf8Size ≤ bytes then
      let (before, after) := splitAtByte (bytes - c.utf8Size) cs
      (c :: before, after)
    else ([], c :: cs)

/-- Line and column after one more character. -/
def stepOver (place : Nat × Nat) (c : Char) : Nat × Nat :=
  if c = '\n' then (place.1 + 1, 1) else (place.1, place.2 + 1)

/-- A position past the end counts as the end. -/
def ofPosition (source : String) (position : Nat) : Location :=
  let (before, after) := splitAtByte position source.toList
  let (line, column) := before.foldl stepOver (1, 1)
  ⟨line, column, String.ofList ((after.takeWhile (!Token.isLineBreak ·)).take 20)⟩

end Location

end FragmentAssembly
