import Curly.Problem.Basic
import Curly.Text.Quoted

/-!
# Lexical faults

What keeps a text from being cut into tokens.
-/

namespace Curly

/-- What keeps a text from being cut into tokens. -/
inductive LexCause where
  /-- A character that begins no token. -/
  | unexpectedCharacter (c : Char)
  /-- A backslash in a string with a character that makes no escape. -/
  | unknownEscape (c : Char)
  /-- A string without its closing quote. -/
  | unterminatedString
deriving DecidableEq

namespace LexCause

/-- The fault in words. -/
def message : LexCause → String
  | unexpectedCharacter c => "unexpected character " ++ String.ofList (Quoted.inspect [c])
  | unknownEscape c => "unknown escape sequence '" ++ String.ofList [Quoted.backslash, c] ++ "'"
  | unterminatedString => "unterminated string literal"

end LexCause

/-- A lexical fault at its place. -/
structure LexError where
  /-- What is wrong. -/
  cause : LexCause
  /-- Where it is wrong. -/
  span : Span
deriving DecidableEq

namespace LexError

/-- The fault as a problem. -/
def toProblem (e : LexError) : Problem :=
  { category := .lexical, message := e.cause.message, span := e.span }

end LexError

end Curly
