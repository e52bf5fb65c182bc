import Curly.Token.Basic
import Curly.Token.Fault
import Curly.Token.Table

/-!
# Lexemes

What stands at the beginning of a text: white space, a lexeme, or a fault. Nothing here depends on
where in a larger text the characters stand, so that all lengths and offsets are relative.

White space is a run of spaces, tabs and carriage returns. Lexemes are tried in this order: a number,
a word, a string, and the symbols of the table, the longest first.

## Main definitions

* `Lexeme`: a kind, a payload and the number of characters.
* `Lexeme.alternatives`, `Lexeme.symbol?`: the symbols in the order in which they are tried, and the first
  that fits.
* `StringReading.ofText`: the contents of a string up to its closing quote.
* `Reading.ofText`: what stands at the beginning of a text.
-/

namespace Curly

/-- A token without its place. -/
structure Lexeme where
  /-- The kind. -/
  kind : TokenKind
  /-- What the token says beyond its kind. -/
  payload : Payload
  /-- The number of characters. -/
  length : Nat
deriving DecidableEq

namespace Lexeme

/-- The characters that separate tokens and mean nothing. -/
def isSpace (c : Char) : Bool := c = ' ' || c = '\t' || c = '\r'

/-- The characters that a word begins with. -/
def isWordStart (c : Char) : Bool := c.isAlpha || c = '_'

/-- The characters of a word. -/
def isWordPart (c : Char) : Bool := c.isAlphanum || c = '_'

/-- The natural number that decimal digits write. -/
def naturalOf (digits : List Char) : Nat :=
  digits.foldl (fun n c => 10 * n + (c.toNat - 0x30)) 0

/-- The digits after the point of a number, if a point with digits follows. -/
def fractionOf : List Char → List Char
  | '.' :: rest => rest.takeWhile Char.isDigit
  | _ => []

/-- The number at the beginning of a text that begins with a digit: digits, and if a point and more
digits follow, these too. -/
def number (text : List Char) : Lexeme :=
  let whole := text.takeWhile Char.isDigit
  let fraction := fractionOf (text.dropWhile Char.isDigit)
  if fraction.isEmpty then
    ⟨.number, .number (Float.ofScientific (naturalOf whole) false 0), whole.length⟩
  else
    ⟨.number, .number (Float.ofScientific (naturalOf (whole ++ fraction)) true fraction.length),
      whole.length + 1 + fraction.length⟩

/-- The word at the beginning of a text that begins with a letter or an underscore. -/
def word (table : Table) (text : List Char) : Lexeme :=
  let chars := text.takeWhile isWordPart
  let name := String.ofList chars
  match table.keyword? name with
  | some kind => ⟨kind, .none, chars.length⟩
  | none => ⟨.identifier, .name name, chars.length⟩

/-- The list with one more symbol in front of the first that is not longer. -/
def insertByLength (symbol : List Char × TokenKind) :
    List (List Char × TokenKind) → List (List Char × TokenKind)
  | [] => [symbol]
  | other :: rest =>
    if other.1.length ≤ symbol.1.length then symbol :: other :: rest
    else other :: insertByLength symbol rest

/-- The symbols of a table in the order in which they are tried, the longest first. Symbols of one length
are tried in the order of the table. -/
def alternatives (table : Table) : List (List Char × TokenKind) :=
  (table.symbols.map fun p => (p.1.toList, p.2)).foldr insertByLength []

/-- The first of the alternatives that a text begins with. -/
def symbol? (table : Table) (text : List Char) : Option (List Char × TokenKind) :=
  (alternatives table).find? fun symbol => symbol.1.isPrefixOf text

end Lexeme

/-- How the contents of a string end. -/
inductive StringReading where
  /-- By a closing quote, after so many characters, the quote included. -/
  | closed (contents : List Char) (length : Nat)
  /-- By a backslash at the given offset and a character that makes no escape. -/
  | unknownEscape (offset : Nat) (c : Char)
  /-- Not at all. -/
  | unterminated
deriving DecidableEq

namespace StringReading

/-- The character that a backslash and a letter stand for. -/
def escape? (c : Char) : Option Char :=
  if c = 'n' then some '\n'
  else if c = 't' then some '\t'
  else if c = Quoted.double then some Quoted.double
  else if c = Quoted.backslash then some Quoted.backslash
  else none

/-- The reading with one more character in front, written with `width` characters. -/
def cons (c : Char) (width : Nat) : StringReading → StringReading
  | closed contents length => closed (c :: contents) (length + width)
  | unknownEscape offset e => unknownEscape (offset + width) e
  | unterminated => unterminated

/-- The contents of a string, from just after its opening quote. A backslash that ends the text is a
character like any other. -/
def ofText : List Char → StringReading
  | [] => unterminated
  | [c] => if c = Quoted.double then closed [] 1 else unterminated
  | c :: d :: rest =>
    if c = Quoted.double then closed [] 1
    else if c = Quoted.backslash then
      match escape? d with
      | some e => (ofText rest).cons e 2
      | none => unknownEscape 0 d
    else (ofText (d :: rest)).cons c 1

end StringReading

/-- What stands at the beginning of a text. -/
inductive Reading where
  /-- So many characters of white space, at least one. -/
  | space (length : Nat)
  /-- A lexeme. -/
  | lexeme (l : Lexeme)
  /-- A fault, with the offset and length of what is faulty. -/
  | fault (cause : LexCause) (offset length : Nat)
  /-- Something that only a symbol could match, under a table that has none. -/
  | unmatched
deriving DecidableEq

namespace Reading

/-- A string literal, given how its contents end and how long the text is from the opening quote
on. -/
def ofString (available : Nat) : StringReading → Reading
  | .closed contents length => lexeme ⟨.string, .string (String.ofList contents), length + 1⟩
  | .unknownEscape offset c => fault (.unknownEscape c) (offset + 1) 2
  | .unterminated => fault .unterminatedString 0 available

/-- What stands at the beginning of a text that is not empty. -/
def ofText (table : Table) (c : Char) (rest : List Char) : Reading :=
  let text := c :: rest
  if Lexeme.isSpace c then space (text.takeWhile Lexeme.isSpace).length
  else if c.isDigit then lexeme (Lexeme.number text)
  else if Lexeme.isWordStart c then lexeme (Lexeme.word table text)
  else if c = Quoted.double then ofString text.length (StringReading.ofText rest)
  else match Lexeme.symbol? table text with
    | some (chars, kind) => lexeme ⟨kind, .none, chars.length⟩
    | none =>
      if table.symbols.isEmpty then unmatched else fault (.unexpectedCharacter c) 0 1

end Reading

end Curly
