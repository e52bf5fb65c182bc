import Curly.Text.Span

/-!
# Lines and columns

A text is cut into lines at each newline character. A position is a line and a column, both counted
from one.

## Main definitions

* `lineStarts`: the offsets at which the lines of a text begin.
* `lineIndex`: the line that holds an offset, found by halving.
* `Position.ofOffset`: the line and column of an offset, which may lie outside the text.
-/

namespace Curly

/-- The offsets just after each newline of a text whose first character stands at `offset`. -/
def startsAfterNewlines (offset : Nat) : List Char → List Nat
  | [] => []
  | c :: cs =>
    if c = '\n' then (offset + 1) :: startsAfterNewlines (offset + 1) cs
    else startsAfterNewlines (offset + 1) cs

/-- The offsets at which the lines of a text begin, in increasing order. The first line begins at
zero. -/
def lineStarts (text : List Char) : Array Nat := (0 :: startsAfterNewlines 0 text).toArray

/-- The last index in `[low, high]` whose start is at most `offset`, given that `low` is such an
index or nothing better is known. Each round halves the range. -/
def lineIndexBetween (starts : Array Nat) (offset : Int) (low high : Nat) : Nat :=
  if low < high then
    let middle := (low + high + 1) / 2
    if (starts.getD middle 0 : Int) ≤ offset then lineIndexBetween starts offset middle high
    else lineIndexBetween starts offset low (middle - 1)
  else low
termination_by high - low

/-- The index of the line that holds an offset, counted from zero. Offsets before the text belong to
the first line, offsets beyond it to the last. -/
def lineIndex (starts : Array Nat) (offset : Int) : Nat :=
  lineIndexBetween starts offset 0 (starts.size - 1)

/-- A place in a text as people count it. -/
structure Position where
  /-- The line, counted from one. -/
  line : Nat
  /-- The column, counted from one. It is less than one for offsets before the text. -/
  column : Int
deriving DecidableEq

namespace Position

/-- The line and column of an offset, relative to the start of its line. -/
def ofOffset (text : List Char) (offset : Int) : Position :=
  let starts := lineStarts text
  let index := lineIndex starts offset
  ⟨index + 1, offset - (starts.getD index 0 : Int) + 1⟩

end Position

/-- The lines of a text, without their newlines. There is one more than there are newlines. -/
def linesOf : List Char → List (List Char)
  | [] => [[]]
  | c :: cs =>
    if c = '\n' then [] :: linesOf cs
    else match linesOf cs with
      | [] => [[c]]
      | line :: rest => (c :: line) :: rest

end Curly
