/-!
# Binary numbers

A finite floating-point number is a sign and a product `m * 2 ^ q` of naturals and powers of two.
This module reads that product off the bits and builds numbers from such products.

## Main definitions

* `Binary`: a non-negative value `m * 2 ^ q` together with the shape of the gap below it.
* `Binary.ofBits`: the magnitude of a finite number.
* `Binary.toFloat`: the floating-point number `m * 2 ^ q`.
-/

namespace Curly

/-- The magnitude of a finite floating-point number, `m * 2 ^ q`. -/
structure Binary where
  /-- The integral factor. -/
  m : Nat
  /-- The power of two. -/
  q : Int
  /-- Whether the gap to the next number below is half the gap to the next number above. -/
  narrowBelow : Bool
deriving DecidableEq

namespace Binary

/-- The magnitude that the bits of a finite number stand for. The sign is ignored, and NaN and the
infinities are no finite numbers. -/
def ofBits (bits : UInt64) : Binary :=
  let exponent : Nat := (bits.toNat / Nat.pow 2 52) % Nat.pow 2 11
  let fraction : Nat := bits.toNat % Nat.pow 2 52
  if exponent = 0 then ⟨fraction, -1074, false⟩
  else ⟨Nat.pow 2 52 + fraction, (exponent : Int) - 1075, fraction == 0 && 1 < exponent⟩

/-- Whether the sign bit is set. -/
def isNegative (x : Float) : Bool := Nat.pow 2 63 ≤ x.toBits.toNat

/-- The magnitude of a finite number. -/
def ofFloat (x : Float) : Binary := ofBits x.toBits

/-- The bits of the number `m * 2 ^ q`, for products that a floating-point number holds exactly: `m` is
below `2 ^ 53`, `q` at least `-1074`, and the product is below `2 ^ 1024`. -/
def bitsOf (m : Nat) (q : Int) : UInt64 :=
  let leading : Int := (Nat.log2 m : Int) + q
  if m = 0 then 0
  else if leading < -1022 then (m * Nat.pow 2 (q + 1074).toNat).toUInt64
  else ((leading + 1022).toNat * Nat.pow 2 52 + m * Nat.pow 2 (52 - Nat.log2 m)).toUInt64

/-- The floating-point number `m * 2 ^ q`, for products that are exact. -/
def toFloat (m : Nat) (q : Int) : Float := Float.ofBits (bitsOf m q)

end Binary

end Curly
