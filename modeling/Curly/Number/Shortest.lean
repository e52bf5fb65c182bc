import Curly.Number.Binary

/-!
# Shortest decimals

The decimal that stands for a floating-point number in text is the one with the fewest digits among
those that round to the number, and of these the nearest to it. All comparisons are made on natural
numbers, so that the choice is exact.

## Main definitions

* `Decimal`: a number `digits * 10 ^ exponent`.
* `Binary.readsBack`: whether a decimal rounds to a given number.
* `Binary.shortest`: the decimal that stands for a number.
-/

namespace Curly

/-- The number `digits * 10 ^ exponent`. -/
structure Decimal where
  /-- The digits, as a natural number. -/
  digits : Nat
  /-- The power of ten. -/
  exponent : Int
deriving DecidableEq

namespace Decimal

/-- The comparison of `a * 10 ^ i` with `b * 2 ^ j`. -/
def compareScaled (a : Nat) (i : Int) (b : Nat) (j : Int) : Ordering :=
  compare (a * Nat.pow 10 i.toNat * Nat.pow 2 (-j).toNat)
    (b * Nat.pow 2 j.toNat * Nat.pow 10 (-i).toNat)

/-- The same number without trailing zeros in its digits, after at most `rounds` divisions. -/
def stripZeros (d : Decimal) : Nat → Decimal
  | 0 => d
  | rounds + 1 =>
    if d.digits ≠ 0 ∧ d.digits % 10 = 0 then stripZeros ⟨d.digits / 10, d.exponent + 1⟩ rounds
    else d

end Decimal

namespace Binary

/-- Whether a decimal lies among the reals that round to the number: between the midpoints to its
neighbours, which belong to it exactly when its integral factor is even. -/
def readsBack (x : Binary) (d : Decimal) : Bool :=
  let low := if x.narrowBelow then 4 * x.m - 1 else 4 * x.m - 2
  let high := 4 * x.m + 2
  let closed := x.m % 2 == 0
  let fromLow := Decimal.compareScaled d.digits d.exponent low (x.q - 2)
  let fromHigh := Decimal.compareScaled d.digits d.exponent high (x.q - 2)
  (fromLow == .gt || (closed && fromLow == .eq)) && (fromHigh == .lt || (closed && fromHigh == .eq))

/-- The integral part of the number divided by `10 ^ e`. -/
def floorAt (x : Binary) (e : Int) : Nat :=
  (x.m * Nat.pow 2 x.q.toNat * Nat.pow 10 (-e).toNat) /
    (Nat.pow 2 (-x.q).toNat * Nat.pow 10 e.toNat)

/-- Whether the number is less than `10 ^ e`. -/
def belowPower (x : Binary) (e : Int) : Bool := Decimal.compareScaled 1 e x.m x.q == .gt

/-- The least `e` from `low` on, within `rounds` steps, such that the number is less than
`10 ^ e`. -/
def magnitudeFrom (x : Binary) (low : Int) : Nat → Int
  | 0 => low
  | rounds + 1 => if x.belowPower low then low else magnitudeFrom x (low + 1) rounds

/-- The least `e` such that the number, which is not zero, is less than `10 ^ e`. The search begins at
a bound computed from the binary logarithm: `2 ^ k` has at least `(k * 3) / 10` digits for positive `k`
and is at least `10 ^ (k / 3)` for negative `k`. -/
def magnitude (x : Binary) : Int :=
  let k : Int := (Nat.log2 x.m : Int) + x.q
  if 0 ≤ k then magnitudeFrom x (k * 3 / 10) 40 else magnitudeFrom x (k / 3 - 1) 60

/-- The nearer of two neighbouring decimals on one grid that both read back; a tie goes to the even
one. -/
def nearer (x : Binary) (n : Nat) (e : Int) : Decimal :=
  match Decimal.compareScaled (2 * n + 1) e (2 * x.m) x.q with
  | .lt => ⟨n + 1, e⟩
  | .gt => ⟨n, e⟩
  | .eq => if n % 2 = 0 then ⟨n, e⟩ else ⟨n + 1, e⟩

/-- The decimal with the given last place that reads back, if there is one: of the two neighbours of
the number on that grid the nearer. -/
def onGrid? (x : Binary) (e : Int) : Option Decimal :=
  let n := x.floorAt e
  match x.readsBack ⟨n, e⟩, x.readsBack ⟨n + 1, e⟩ with
  | true, true => some (x.nearer n e)
  | true, false => some ⟨n, e⟩
  | false, true => some ⟨n + 1, e⟩
  | false, false => none

/-- The number itself as a decimal. -/
def exact (x : Binary) : Decimal :=
  if 0 ≤ x.q then ⟨x.m * Nat.pow 2 x.q.toNat, 0⟩ else ⟨x.m * Nat.pow 5 (-x.q).toNat, x.q⟩

/-- The decimal that stands for the number: on the coarsest grid that has one which reads back, the
nearest. Seventeen digits are always enough; the exact decimal is there for definiteness. -/
def shortest (x : Binary) : Decimal :=
  if x.m = 0 then ⟨0, 0⟩
  else
    let top := x.magnitude
    let found := (List.range 17).findSome? fun (n : Nat) => x.onGrid? (top - (n + 1 : Nat))
    (found.getD x.exact).stripZeros 800

end Binary

end Curly
