/-!
# Token kinds

## Main definitions

* `TokenKind`: the kinds of tokens.
* `TokenKind.name`: the name that tables and traces use for a kind.
* `TokenKind.describe`: the name that error messages use for a kind.
-/

namespace Curly

/-- The kinds of tokens. -/
inductive TokenKind where
  | varWord
  | doWord
  | loopWord
  | funcWord
  | trueWord
  | falseWord
  | andWord
  | orWord
  | notWord
  | string
  | number
  | identifier
  | leftParen
  | rightParen
  | leftBrace
  | rightBrace
  | comma
  | endOfLine
  | plus
  | minus
  | star
  | slash
  | percent
  | equal
  | doubleEqual
  | bangEqual
  | greater
  | greaterEqual
  | lesser
  | lesserEqual
  | ampersand
  | pipe
  | bang
  | endOfInput
deriving DecidableEq

namespace TokenKind

/-- All kinds. -/
def all : List TokenKind :=
  [varWord, doWord, loopWord, funcWord, trueWord, falseWord, andWord, orWord, notWord,
    string, number, identifier, leftParen, rightParen, leftBrace, rightBrace, comma, endOfLine,
    plus, minus, star, slash, percent, equal, doubleEqual, bangEqual, greater, greaterEqual,
    lesser, lesserEqual, ampersand, pipe, bang, endOfInput]

/-- The name of a kind in tables and traces. -/
def name : TokenKind → String
  | varWord => "VAR"
  | doWord => "DO"
  | loopWord => "LOOP"
  | funcWord => "FUNC"
  | trueWord => "TRUE"
  | falseWord => "FALSE"
  | andWord => "AND"
  | orWord => "OR"
  | notWord => "NOT"
  | string => "STRING"
  | number => "NUMBER"
  | identifier => "IDENTIFIER"
  | leftParen => "LPAREN"
  | rightParen => "RPAREN"
  | leftBrace => "LBRACE"
  | rightBrace => "RBRACE"
  | comma => "COMMA"
  | endOfLine => "EOL"
  | plus => "PLUS"
  | minus => "MINUS"
  | star => "STAR"
  | slash => "SLASH"
  | percent => "PERCENT"
  | equal => "EQUAL"
  | doubleEqual => "DOUBLE_EQUAL"
  | bangEqual => "BANG_EQUAL"
  | greater => "GREATER"
  | greaterEqual => "GREATER_EQUAL"
  | lesser => "LESSER"
  | lesserEqual => "LESSER_EQUAL"
  | ampersand => "AMPERSAND"
  | pipe => "PIPE"
  | bang => "BANG"
  | endOfInput => "EOF"

/-- The usual spelling of a kind, or what stands for it where spellings vary. -/
def text : TokenKind → String
  | varWord => "var"
  | doWord => "do"
  | loopWord => "loop"
  | funcWord => "func"
  | trueWord => "true"
  | falseWord => "false"
  | andWord => "and"
  | orWord => "or"
  | notWord => "not"
  | string => "string"
  | number => "number"
  | identifier => "identifier"
  | leftParen => "("
  | rightParen => ")"
  | leftBrace => "\x7b"
  | rightBrace => "\x7d"
  | comma => ","
  | endOfLine => "end of line"
  | plus => "+"
  | minus => "-"
  | star => "*"
  | slash => "/"
  | percent => "%"
  | equal => "="
  | doubleEqual => "=="
  | bangEqual => "!="
  | greater => ">"
  | greaterEqual => ">="
  | lesser => "<"
  | lesserEqual => "<="
  | ampersand => "&"
  | pipe => "|"
  | bang => "!"
  | endOfInput => "end of input"

/-- The kind of the given name. -/
def ofName? (s : String) : Option TokenKind := all.find? fun k => k.name == s

/-- The kinds whose tokens have no spelling of their own. -/
def isGeneric : TokenKind → Bool
  | string | number | identifier | endOfLine | endOfInput => true
  | _ => false

/-- The name of a kind in error messages: spellings are quoted, generic names are not. -/
def describe (k : TokenKind) : String :=
  if k.isGeneric then k.text else "'" ++ k.text ++ "'"

theorem mem_all (k : TokenKind) : k ∈ all := by
  cases k <;> decide

theorem ofName?_name (k : TokenKind) : ofName? k.name = some k := by
  cases k <;> decide

end TokenKind

end Curly
