import FragmentAssembly.Binary32.Decimal

/-!
# Numbers in arguments

An argument is a numeral as a whole, or one of the words for infinity and NaN with an optional
sign, in any case.
-/

namespace FragmentAssembly.Binary32

def ofWord? (word : List Char) : Option Binary32 :=
  let word := String.ofList (word.map Char.toLower)
  if word = "inf" || word = "infinity" then some (infinity false)
  else if word = "nan" then some nan
  else none

def ofArgument? (cs : List Char) : Option Binary32 :=
  let (sign, rest) := Numeral.takeSign cs
  match ofWord? rest with
  | some a => some (if sign = some '-' then a.neg else a)
  | none =>
    match Numeral.ofChars? cs with
    | some n => if n.chars.length = cs.length then some (ofNumeral n) else none
    | none => none

end FragmentAssembly.Binary32
