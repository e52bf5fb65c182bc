import Curly.Number.Binary

/-!
# The remainder of a division

The remainder of two floating-point numbers has the sign of the dividend and a magnitude less than
that of the divisor, and differs from the dividend by an integral multiple of the divisor. It is always
exact: both magnitudes are brought to a common power of two and divided as natural numbers.
-/

namespace Curly.Binary

/-- The remainder of two magnitudes, as an integral factor and the power of two of the finer one. -/
def remainder (x y : Binary) : Nat × Int :=
  let q := min x.q y.q
  ((x.m * Nat.pow 2 (x.q - q).toNat) % (y.m * Nat.pow 2 (y.q - q).toNat), q)

/-- The remainder of a division of finite numbers. A divisor of infinite magnitude leaves the dividend
as it is; the result is not a number if either argument is none, the dividend is infinite or the
divisor is zero. -/
def remainderOf (x y : Float) : Float :=
  if x.isNaN || y.isNaN || x.isInf || y == 0 then 0.0 / 0.0
  else if y.isInf then x
  else
    let (m, q) := remainder (ofFloat x) (ofFloat y)
    if isNegative x then -(toFloat m q) else toFloat m q

end Curly.Binary
