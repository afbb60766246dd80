/-!
# Numerals

A numeral is an optional sign, digits with an optional point among them, and an optional exponent.
`Numeral.ofChars?` reads the longest numeral that a text begins with, and `Numeral.chars` gives
back the characters that it was read from.
-/

namespace FragmentAssembly

/-- The number `digits * 10 ^ exponent`, negated if `negative`. -/
structure Decimal where
  negative : Bool
  digits : Nat
  exponent : Int
deriving DecidableEq, Repr, Inhabited

/-- The mark of an exponent with its sign and digits. -/
structure ExponentPart where
  mark : Char
  sign : Option Char
  digits : List Char
deriving DecidableEq, Repr

structure Numeral where
  sign : Option Char
  whole : List Char
  fraction : Option (List Char)
  exponent : Option ExponentPart
deriving DecidableEq, Repr

namespace Numeral

/-- The sign that a text begins with, and what follows it. -/
def takeSign : List Char → Option Char × List Char
  | [] => (none, [])
  | c :: cs => if c = '+' || c = '-' then (some c, cs) else (none, c :: cs)

/-- The digits on both sides of the point, and what follows them.  One side has a digit. -/
def takeDigits? (cs : List Char) : Option (List Char × Option (List Char) × List Char) :=
  let whole := cs.takeWhile Char.isDigit
  match cs.dropWhile Char.isDigit with
  | '.' :: afterPoint =>
    let fraction := afterPoint.takeWhile Char.isDigit
    if whole.isEmpty && fraction.isEmpty then none
    else some (whole, some fraction, afterPoint.dropWhile Char.isDigit)
  | rest => if whole.isEmpty then none else some (whole, none, rest)

/-- The exponent that a text begins with, if it begins with a mark.  A mark without digits is
no exponent, and the numeral before it is then no numeral either. -/
def takeExponent? : List Char → Option (Option ExponentPart)
  | [] => some none
  | c :: cs =>
    if c = 'e' || c = 'E' then
      let (sign, unsigned) := takeSign cs
      let digits := unsigned.takeWhile Char.isDigit
      if digits.isEmpty then none else some (some ⟨c, sign, digits⟩)
    else some none

def ofChars? (cs : List Char) : Option Numeral := do
  let (sign, unsigned) := takeSign cs
  let (whole, fraction, rest) ← takeDigits? unsigned
  let exponent ← takeExponent? rest
  return ⟨sign, whole, fraction, exponent⟩

def chars (n : Numeral) : List Char :=
  n.sign.toList ++ n.whole
    ++ (match n.fraction with
        | none => []
        | some digits => '.' :: digits)
    ++ (match n.exponent with
        | none => []
        | some e => e.mark :: e.sign.toList ++ e.digits)

def exponentValue (n : Numeral) : Int :=
  match n.exponent with
  | none => 0
  | some e =>
    let magnitude : Int := Nat.ofDigitChars 10 e.digits 0
    if e.sign = some '-' then -magnitude else magnitude

/-- Each digit after the point takes one from the exponent. -/
def value (n : Numeral) : Decimal :=
  let fraction := n.fraction.getD []
  { negative := n.sign = some '-'
    digits := Nat.ofDigitChars 10 (n.whole ++ fraction) 0
    exponent := n.exponentValue - fraction.length }

end Numeral

end FragmentAssembly
