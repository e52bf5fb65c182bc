import Curly.Token.Stream
import Curly.Problem.Basic

/-!
# Faults of reading

What keeps tokens from being read as a tree.

## Main definitions

* `SyntaxCause`, `SyntaxError`: a token sequence that does not fit, and where.
* `ReadFault`: everything that can end the reading of a tree.
* `ReadFault.toProblem?`: the problem that a fault is for the author of the text.
-/

namespace Curly

/-- What is wrong with a token sequence. The token that does not fit is the last argument. -/
inductive SyntaxCause where
  /-- A token of one certain kind has to stand here. -/
  | expectedToken (kind : TokenKind) (found : Token)
  /-- Only declarations may stand here. -/
  | expectedDeclaration (found : Token)
  /-- The name of a declaration is followed by neither an initializer nor the end of the
  declaration. -/
  | malformedDeclaration (found : Token)
  /-- A statement of a block is followed by neither an end of line nor the end of the block. -/
  | expectedEndOfStatement (found : Token)
  /-- An argument is followed by neither a comma nor the end of the list. -/
  | expectedEndOfArgument (found : Token)
  /-- No expression begins here. -/
  | expectedExpression (found : Token)
  /-- The text ends where an expression has to begin. -/
  | missingExpression
  /-- A parenthesis or brace is never closed. -/
  | unclosed (opener : TokenKind)
  /-- Something other than a name stands before an equals sign. -/
  | invalidTarget
  /-- A declaration stands where a value is needed. -/
  | misplacedDeclaration
  /-- The word for functions is used, which has no meaning yet. -/
  | reservedFunction
  /-- The text is nested too deeply. -/
  | nestedTooDeeply
deriving DecidableEq

namespace SyntaxCause

/-- The fault in words. -/
def message : SyntaxCause → String
  | expectedToken kind found => "expected " ++ kind.describe ++ ", found " ++ found.describe
  | expectedDeclaration found =>
    "expected a 'var' declaration at top level, found " ++ found.describe
  | malformedDeclaration found =>
    "invalid variable declaration: expected '=' or end of line, found " ++ found.describe
  | expectedEndOfStatement found =>
    "expected end of line or '\x7d', found " ++ found.describe
  | expectedEndOfArgument found =>
    "expected ',' or ')' in argument list, found " ++ found.describe
  | expectedExpression found => "expected an expression, found " ++ found.describe
  | missingExpression => "unexpected end of input, expected an expression"
  | unclosed opener => "unclosed " ++ opener.describe
  | invalidTarget => "invalid assignment target: only a variable name can be assigned"
  | misplacedDeclaration => "a 'var' declaration is not allowed inside an expression"
  | reservedFunction => "'func' is reserved: function definitions are not supported"
  | nestedTooDeeply => "input is nested too deeply"

end SyntaxCause

/-- A fault in a token sequence at its place. -/
structure SyntaxError where
  /-- What is wrong. -/
  cause : SyntaxCause
  /-- Where it is wrong. -/
  span : Span
deriving DecidableEq

namespace SyntaxError

/-- The fault as a problem. -/
def toProblem (e : SyntaxError) : Problem :=
  { category := .syntactic, message := e.cause.message, span := e.span }

end SyntaxError

/-- Everything that can end the reading of a tree. -/
inductive ReadFault where
  /-- The tokens do not fit. -/
  | syntactic (error : SyntaxError)
  /-- The next token cannot be read off the text. -/
  | lexical (error : LexError)
  /-- The next token could only be a symbol, and the table has none. -/
  | unmatched
  /-- A token is needed after the last one. -/
  | exhausted
  /-- A token kind has a binding power but stands for no operator. -/
  | noOperator (kind : TokenKind)
  /-- A token kind is listed in front of operands, by a name that no operator has. -/
  | noSign (name : String)
  /-- An equals sign follows an identifier that says no name. -/
  | namelessTarget
  /-- Arguments were read and nothing before them that is called with them. -/
  | missingCallee
  /-- The text is nested too deeply. -/
  | tooDeep
deriving DecidableEq

namespace ReadFault

/-- The problem that a fault is for the author of a text of the given length. There is none for the
faults that only a defective table, a stream read past its end or a rule out of its place can bring
about. -/
def toProblem? (length : Nat) : ReadFault → Option Problem
  | syntactic e => some e.toProblem
  | lexical e => some e.toProblem
  | tooDeep => some (SyntaxError.toProblem ⟨.nestedTooDeeply, .ofLength 0 length⟩)
  | unmatched => none
  | exhausted => none
  | noOperator _ => none
  | noSign _ => none
  | namelessTarget => none
  | missingCallee => none

end ReadFault

end Curly
