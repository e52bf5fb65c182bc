import Curly.Value.Basic
import Curly.Number.Layout
import Curly.Text.Quoted

/-!
# The display form of values

The text that the prompt and the outline of a tree show for a value.

## Main definitions

* `Value.displayNumber`: a number, without a fraction when it is integral and not too large.
* `Value.display`: any value.
-/

namespace Curly

/-- The natural number that a magnitude is, if it is integral. -/
def Binary.natural? (x : Binary) : Option Nat :=
  if 0 ≤ x.q then some (x.m * Nat.pow 2 x.q.toNat)
  else if x.m % Nat.pow 2 (-x.q).toNat = 0 then some (x.m / Nat.pow 2 (-x.q).toNat)
  else none

namespace Value

/-- Integral numbers of at least this magnitude are displayed in the layout of all other numbers. -/
def integralBound : Nat := Nat.pow 10 16

/-- A number for display. Integral numbers below the bound are written as integers, zero without a
sign. -/
def displayNumber (x : Float) : String :=
  if x.isNaN || x.isInf then Layout.plain.render x
  else match (Binary.ofFloat x).natural? with
    | none => Layout.plain.render x
    | some n =>
      if n < integralBound then
        if Binary.isNegative x && n ≠ 0 then "-" ++ toString n else toString n
      else Layout.plain.render x

/-- A value for display. -/
def display : Value → String
  | null => "null"
  | bool true => "true"
  | bool false => "false"
  | number x => displayNumber x
  | string s => Quoted.displayString s
  | foreign n => toString n

end Value

end Curly
