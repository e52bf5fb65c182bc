import Curly.Number.Shortest

/-!
# The layout of numbers

How the decimal that stands for a number is written out. The choices of a written form are the fields
of one record; `Layout.plain` is the form used by this library.

## Main definitions

* `Layout`: the choices.
* `Layout.render`: the text of a number.
-/

namespace Curly

/-- The choices of a written form of numbers. The exponent of a number is that of its leading
digit. -/
structure Layout where
  /-- The least exponent that is written positionally. -/
  positionalFrom : Int
  /-- The least exponent, above the former, that is written in scientific form. -/
  positionalBelow : Int
  /-- What follows the digits of an integral number. -/
  integralTail : String
  /-- What separates digits and exponent in scientific form. -/
  exponentMark : String
  /-- The least number of digits of an exponent. -/
  exponentWidth : Nat
  /-- The text of a number that is none. -/
  notANumber : String
  /-- The text of infinity. -/
  infinity : String

namespace Layout

/-- Exponents from -4 to 15 are written positionally, and integral numbers end in a zero after the
point. Other exponents have a sign and at least two digits. -/
def plain : Layout where
  positionalFrom := -4
  positionalBelow := 16
  integralTail := ".0"
  exponentMark := "e"
  exponentWidth := 2
  notANumber := "nan"
  infinity := "inf"

/-- The decimal digits of a natural number. -/
def digitsOf (n : Nat) : List Char := Nat.toDigits 10 n

/-- A list of characters, filled with zeros from the left to a given width. -/
def padZeros (width : Nat) (cs : List Char) : List Char :=
  List.replicate (width - cs.length) '0' ++ cs

/-- The exponent part of the scientific form. -/
def exponentText (l : Layout) (e : Int) : List Char :=
  l.exponentMark.toList ++ (if e < 0 then '-' else '+') ::
    padZeros l.exponentWidth (digitsOf e.natAbs)

/-- The text of a decimal whose digits have no trailing zeros. -/
def renderDecimal (l : Layout) (d : Decimal) : List Char :=
  let digits := digitsOf d.digits
  let e : Int := d.exponent + digits.length - 1
  if d.digits = 0 then '0' :: l.integralTail.toList
  else if l.positionalFrom ≤ e ∧ e < l.positionalBelow then
    if 0 ≤ d.exponent then
      digits ++ List.replicate d.exponent.toNat '0' ++ l.integralTail.toList
    else if 0 ≤ e then
      digits.take (e + 1).toNat ++ '.' :: digits.drop (e + 1).toNat
    else
      '0' :: '.' :: List.replicate (-e - 1).toNat '0' ++ digits
  else match digits with
    | [] => []
    | [c] => c :: l.exponentText e
    | c :: rest => c :: '.' :: rest ++ l.exponentText e

/-- The text of a number. -/
def render (l : Layout) (x : Float) : String :=
  if x.isNaN then l.notANumber
  else
    let sign := if Binary.isNegative x then "-" else ""
    if x.isInf then sign ++ l.infinity
    else sign ++ String.ofList (l.renderDecimal (Binary.ofFloat x).shortest)

end Layout

end Curly
