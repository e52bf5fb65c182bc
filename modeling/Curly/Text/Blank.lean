/-!
# Blank characters

Two notions of white space, each a table of ranges.

* `Blank.isBlank`: the characters that are removed from both ends of a typed line: those of Unicode's
  white-space property and the four information separators U+001C to U+001F.
* `Blank.isAroundNumeral`: the characters allowed around a written integer: the same without the
  separators.
-/

namespace Curly.Blank

/-- Code points of the white-space characters beyond ASCII, as ranges with both ends included. -/
def beyondAscii : List (Nat × Nat) :=
  [(0x85, 0x85), (0xA0, 0xA0), (0x1680, 0x1680), (0x2000, 0x200A), (0x2028, 0x2029),
    (0x202F, 0x202F), (0x205F, 0x205F), (0x3000, 0x3000)]

/-- White space that may stand around a written integer. -/
def isAroundNumeral (c : Char) : Bool :=
  c = ' ' || (0x09 ≤ c.toNat && c.toNat ≤ 0x0D) ||
    beyondAscii.any fun (low, high) => low ≤ c.toNat && c.toNat ≤ high

/-- White space that is removed from both ends of a typed line. -/
def isBlank (c : Char) : Bool :=
  isAroundNumeral c || (0x1C ≤ c.toNat && c.toNat ≤ 0x1F)

/-- The text without the leading and trailing characters of a class. -/
def trimWhile (p : Char → Bool) (text : List Char) : List Char :=
  ((text.dropWhile p).reverse.dropWhile p).reverse

/-- The text without blank characters at both ends. -/
def trim (text : List Char) : List Char := trimWhile isBlank text

end Curly.Blank
