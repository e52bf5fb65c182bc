import Curly.Text.Printable

/-!
# Quoted text

Two written forms of a text between quotes.

* `Quoted.inspect`: the form in error messages and traces. The quote is the single one, unless the
  text holds a single quote and no double quote. The quote in use and the backslash are escaped by a
  backslash, tab and line ends by a letter, and every other unprintable character by its code in two,
  four or eight hexadecimal digits.
* `Quoted.display`: the form of a string value. The quote is the double one, and the escapes are
  those that a string literal of the language may hold.
-/

namespace Curly.Quoted

/-- The single quote. -/
def single : Char := '\x27'

/-- The double quote. -/
def double : Char := '\x22'

/-- The escape character. -/
def backslash : Char := '\x5c'

/-- The lower-case hexadecimal digit of a value below sixteen. -/
def hexDigit (n : Nat) : Char := if n < 10 then Char.ofNat (0x30 + n) else Char.ofNat (0x57 + n)

/-- The last `width` hexadecimal digits of a number. -/
def hexDigits : Nat → Nat → List Char
  | 0, _ => []
  | width + 1, n => hexDigits width (n / 16) ++ [hexDigit (n % 16)]

/-- The escape of an unprintable character by its code. -/
def codeEscape (c : Char) : List Char :=
  if c.toNat < 0x100 then [backslash, 'x'] ++ hexDigits 2 c.toNat
  else if c.toNat < 0x10000 then [backslash, 'u'] ++ hexDigits 4 c.toNat
  else [backslash, 'U'] ++ hexDigits 8 c.toNat

/-- One character inside an inspected text. -/
def inspectChar (quote c : Char) : List Char :=
  if c = quote || c = backslash then [backslash, c]
  else if c = '\t' then [backslash, 't']
  else if c = '\n' then [backslash, 'n']
  else if c = '\r' then [backslash, 'r']
  else if Printable.isPrintable c then [c]
  else codeEscape c

/-- The quote around an inspected text. -/
def quoteFor (text : List Char) : Char :=
  if text.contains single && !text.contains double then double else single

/-- The form of a text in messages and traces. -/
def inspect (text : List Char) : List Char :=
  quoteFor text :: text.flatMap (inspectChar (quoteFor text)) ++ [quoteFor text]

/-- One character inside a displayed string. -/
def displayChar (c : Char) : List Char :=
  if c = backslash then [backslash, backslash]
  else if c = double then [backslash, double]
  else if c = '\n' then [backslash, 'n']
  else if c = '\t' then [backslash, 't']
  else [c]

/-- The form of a string value. -/
def display (text : List Char) : List Char :=
  double :: text.flatMap displayChar ++ [double]

/-- `inspect` on strings. -/
def inspectString (s : String) : String := String.ofList (inspect s.toList)

/-- `display` on strings. -/
def displayString (s : String) : String := String.ofList (display s.toList)

end Curly.Quoted
