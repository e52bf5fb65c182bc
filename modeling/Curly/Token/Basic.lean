import Curly.Token.Kind
import Curly.Text.Span
import Curly.Text.Quoted
import Curly.Number.Layout

/-!
# Tokens

## Main definitions

* `Payload`: what a token says beyond its kind.
* `Token`: a kind, a place, a payload, and the characters that were read.
* `Token.inspect`: the form of a token in traces.
-/

namespace Curly

/-- What a token says beyond its kind. -/
inductive Payload where
  /-- Nothing. -/
  | none
  /-- The name of an identifier. -/
  | name (s : String)
  /-- The number that a literal writes. -/
  | number (x : Float)
  /-- The string that a literal writes, its escapes resolved. -/
  | string (s : String)
deriving DecidableEq

/-- A token of a text. -/
structure Token where
  /-- The kind. -/
  kind : TokenKind
  /-- The place in the text. -/
  span : Span
  /-- What the token says beyond its kind. -/
  payload : Payload
  /-- The characters of the text under the span. -/
  lexeme : List Char
deriving DecidableEq

namespace Token

/-- The token that ends every text that could be cut. -/
def endOfInput (offset : Nat) : Token := ⟨.endOfInput, .ofLength offset 0, .none, []⟩

/-- The token in error messages: names, numbers and strings with their characters, all others by
their kind. -/
def describe (t : Token) : String :=
  match t.kind with
  | .identifier | .number | .string => t.kind.text ++ " '" ++ String.ofList t.lexeme ++ "'"
  | kind => kind.describe

/-- The form of a token in traces. -/
def inspect (t : Token) : String :=
  let payload := match t.payload with
    | .none => ""
    | .name s => Quoted.inspectString s ++ ", "
    | .number x => Layout.plain.render x ++ ", "
    | .string s => Quoted.inspectString s ++ ", "
  "Token(" ++ t.kind.name ++ ", " ++ payload ++ toString t.span ++ ")"

end Token

end Curly
