import FragmentAssembly.Binary32.Decimal

/-!
# The text of a number

A number is written with the digits of its shortest decimal.  A `NumeralStyle` says when the
point is put among the digits and when an exponent follows them.
-/

namespace FragmentAssembly

structure NumeralStyle where
  /-- Whether a number whose first digit stands for `10 ^ e` is written without an exponent. -/
  isPositional : Int → Bool
  /-- What follows the digits of a whole number that is written without an exponent. -/
  wholeEnd : String

/-- The style of program text: numbers keep a point, and very great and very small ones get an
exponent. -/
def NumeralStyle.literal : NumeralStyle :=
  ⟨fun e => -4 ≤ e && e < 16, ".0"⟩

/-- The style of reports: never an exponent, and no point after a whole number. -/
def NumeralStyle.plain : NumeralStyle :=
  ⟨fun _ => true, ""⟩

namespace NumeralStyle

def zeros (n : Int) : String :=
  String.ofList (List.replicate n.toNat '0')

/-- Digits with a point after the first `place` of them, filled up with zeros. -/
def positional (style : NumeralStyle) (digits : List Char) (place : Int) : String :=
  if place ≤ 0 then
    "0." ++ zeros (-place) ++ String.ofList digits
  else if digits.length ≤ place then
    String.ofList digits ++ zeros (place - digits.length) ++ style.wholeEnd
  else
    String.ofList (digits.take place.toNat) ++ "." ++ String.ofList (digits.drop place.toNat)

def exponential (digits : List Char) (place : Int) : String :=
  String.ofList (digits.take 1)
    ++ (if digits.length ≤ 1 then "" else "." ++ String.ofList (digits.drop 1))
    ++ "e" ++ toString (place - 1)

def unsigned (style : NumeralStyle) (digits : Nat) (exponent : Int) : String :=
  if digits = 0 then "0" ++ style.wholeEnd
  else
    let chars := Nat.toDigits 10 digits
    let place := chars.length + exponent
    if style.isPositional (place - 1) then style.positional chars place
    else exponential chars place

end NumeralStyle

namespace Binary32

def text (style : NumeralStyle) (a : Binary32) : String :=
  if a.isNaN then "NaN"
  else
    (if a.isNegative then "-" else "")
      ++ if a.isInfinite then "inf"
         else
          let d := a.shortest
          style.unsigned d.digits d.exponent

end Binary32

namespace Vec4

/-- The components between the two marks, with commas between them. -/
def text (style : NumeralStyle) (opening closing : String) (v : Vec4) : String :=
  opening ++ String.intercalate ", " (v.toList.map (Binary32.text style)) ++ closing

end Vec4

end FragmentAssembly
