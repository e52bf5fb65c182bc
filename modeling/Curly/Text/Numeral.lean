import Curly.Text.Blank

/-!
# Written integers

The form in which a setting gives an integer: an optional sign and decimal digits of any script,
single underscores between digits, white space around it, and at most 4300 digits. An integer is written
with at most as many digits.

## Main definitions

* `Numeral.digit?`: the value of a decimal digit of any script.
* `Numeral.integer?`: the integer that a text writes, if it writes one.
* `Numeral.isWritable`: whether an integer is written in decimal digits.
-/

namespace Curly.Numeral

/-- The code points of the zeros of all scripts; each is followed by its digits one to nine. The
repertoire is that of Unicode 14. -/
def zeros : List Nat := [
  0x30, 0x660, 0x6F0, 0x7C0, 0x966, 0x9E6, 0xA66, 0xAE6, 0xB66, 0xBE6, 0xC66, 0xCE6, 0xD66, 0xDE6,
  0xE50, 0xED0, 0xF20, 0x1040, 0x1090, 0x17E0, 0x1810, 0x1946, 0x19D0, 0x1A80, 0x1A90, 0x1B50,
  0x1BB0, 0x1C40, 0x1C50, 0xA620, 0xA8D0, 0xA900, 0xA9D0, 0xA9F0, 0xAA50, 0xABF0, 0xFF10, 0x104A0,
  0x10D30, 0x11066, 0x110F0, 0x11136, 0x111D0, 0x112F0, 0x11450, 0x114D0, 0x11650, 0x116C0,
  0x11730, 0x118E0, 0x11950, 0x11C50, 0x11D50, 0x11DA0, 0x16A60, 0x16AC0, 0x16B50, 0x1D7CE,
  0x1D7D8, 0x1D7E2, 0x1D7EC, 0x1D7F6, 0x1E140, 0x1E2F0, 0x1E950, 0x1FBF0]

/-- The value of a decimal digit of any script. -/
def digit? (c : Char) : Option Nat :=
  (zeros.find? fun least => least ≤ c.toNat && c.toNat < least + 10).map fun least =>
    c.toNat - least

/-- Digits with single underscores between them, as the list of their values. -/
def digits? : List Char → Option (List Nat)
  | [] => none
  | [c] => (digit? c).map ([·])
  | c :: '_' :: rest => do
    let d ← digit? c
    return d :: (← digits? rest)
  | c :: rest => do
    let d ← digit? c
    return d :: (← digits? rest)

/-- The greatest number of digits that are read or written. -/
def maxDigits : Nat := 4300

/-- Whether an integer has few enough decimal digits to be written. The sign does not count. -/
def isWritable (n : Int) : Bool := n.natAbs < Nat.pow 10 maxDigits

/-- Numbers from the first one with too many digits on are not written, nor are their opposites. -/
theorem isWritable_eq_false_iff {n : Int} : isWritable n = false ↔ Nat.pow 10 maxDigits ≤ n.natAbs := by
  unfold isWritable
  rw [decide_eq_false_iff_not, Nat.not_lt]

/-- The greatest of the negative integers that have too many digits. -/
theorem isWritable_neg_pow : isWritable (-Nat.pow 10 maxDigits) = false := by
  refine isWritable_eq_false_iff.2 (Nat.le_of_eq ?_)
  rw [Int.natAbs_neg, Int.natAbs_natCast]

theorem isWritable_zero : isWritable 0 = true := by
  unfold isWritable
  generalize maxDigits = digits
  exact decide_eq_true (Nat.pow_pos (by decide))

/-- The number that digits write, the most significant first. -/
def ofDigits (digits : List Nat) : Nat := digits.foldl (fun n d => 10 * n + d) 0

/-- The natural number that a text of digits writes. -/
def natural? (text : List Char) : Option Nat := do
  let digits ← digits? text
  if digits.length ≤ maxDigits then some (ofDigits digits) else none

/-- The integer that a text writes. -/
def integer? (text : List Char) : Option Int :=
  match Blank.trimWhile Blank.isAroundNumeral text with
  | '+' :: digits => (natural? digits).map Int.ofNat
  | '-' :: digits => (natural? digits).map fun n => -(n : Int)
  | digits => (natural? digits).map Int.ofNat

end Curly.Numeral
