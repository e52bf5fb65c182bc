import Curly.Tree.Unit

/-!
# The grammar

The grammar of the language, as a relation between token sequences and trees. It says which sequences
form a tree and says nothing about how a tree is found.

```text
Unit       = EOL* Listing EOF
Listing    = [Statement (EOL+ Statement)* EOL*]
Statement  = 'var' IDENT ['=' Expression] | Expression
Expression = IDENT '=' Expression | Disjunction
Layer      = Layer operator Tighter | Tighter
Operand    = ('not' | '!' | '-') Operand | Application
Application = Primary ( '(' [Expression (',' Expression)*] ')' )*
Primary    = STRING | NUMBER | 'true' | 'false' | IDENT | 'do' Block | 'loop' Block | '(' Expression ')'
Block      = '{' EOL* Listing '}'
```

## Main definitions

* `Layer`: the six layers of binary operators, each over the next tighter one.
* `Phrase`: the phrases of the language.
* `Phrase.Derives`: the token sequences of a phrase and their trees.
* `TextUnit.Derives`: the token sequences of whole texts and their trees.

## Design notes

Both relations carry a bound on the nesting of constructs. It counts the calls of the rules that are open
when a phrase is read, an expression and its first operand included, so that an operand costs one, a call
three and a pair of parentheses four. A declaration costs one more as a statement than as an entry of a
program. `TextUnit.Derivable` forgets the bound.
-/

namespace Curly

/-- The layers of operators between two operands, from the loosest to the tightest. -/
inductive Layer where
  | disjunction
  | conjunction
  | equality
  | comparison
  | sum
  | product
deriving DecidableEq

namespace Layer

/-- The operator that a token kind stands for in a layer. -/
def operator? : Layer → TokenKind → Option BinaryOperator
  | disjunction, .orWord => some .or
  | disjunction, .pipe => some .or
  | conjunction, .andWord => some .and
  | conjunction, .ampersand => some .and
  | equality, .doubleEqual => some .equal
  | equality, .bangEqual => some .notEqual
  | comparison, .lesser => some .lesser
  | comparison, .lesserEqual => some .lesserEqual
  | comparison, .greater => some .greater
  | comparison, .greaterEqual => some .greaterEqual
  | sum, .plus => some .add
  | sum, .minus => some .subtract
  | product, .star => some .multiply
  | product, .slash => some .divide
  | product, .percent => some .modulo
  | _, _ => none

end Layer

/-- The phrases of the language. -/
inductive Phrase where
  /-- A declaration or an expression. -/
  | statement
  /-- An assignment or an operation. -/
  | expression
  /-- Operands joined by the operators of a layer and of all tighter ones. -/
  | layer (l : Layer)
  /-- An application behind any number of signs. -/
  | operand
  /-- A primary expression with any number of argument lists. -/
  | application
  /-- A literal, a name, a block behind its word, or an expression in parentheses. -/
  | primary
  /-- Statements in braces. -/
  | block
deriving DecidableEq

/-- The phrases that the operators of a layer join: those of the next tighter layer. -/
def Layer.tighter : Layer → Phrase
  | disjunction => .layer conjunction
  | conjunction => .layer equality
  | equality => .layer comparison
  | comparison => .layer sum
  | sum => .layer product
  | product => .operand

namespace Phrase

/-- The operator that a token kind stands for in front of an operand. -/
def sign? : TokenKind → Option UnaryOperator
  | .notWord => some .not
  | .bang => some .not
  | .minus => some .negate
  | _ => none

/-- The value of a token that is a literal. -/
def literal? (t : Token) : Option Value :=
  match t.kind, t.payload with
  | .string, .string s => some (.string s)
  | .number, .number x => some (.number x)
  | .trueWord, _ => some (.bool true)
  | .falseWord, _ => some (.bool false)
  | _, _ => none

end Phrase

/-- The token is an identifier that says the given name. -/
def Token.IsName (t : Token) (name : String) : Prop := t.kind = .identifier ∧ t.payload = .name name

/-- All tokens are ends of line. -/
def EndsOfLine (ts : List Token) : Prop := ∀ t ∈ ts, t.kind = .endOfLine

theorem EndsOfLine.nil : EndsOfLine [] := nofun

/-- Tokens that belong together, with the tree that they form. -/
abbrev Part := List Token × Tree

/-- `Listing ts parts es tail`: the parts stand in `ts`, separated by ends of line. Those that an end
of line follows are the statements `es`; the last one, if none follows it, is the tail. -/
inductive Listing : List Token → List Part → List Tree → Option Tree → Prop where
  | nil : Listing [] [] [] none
  | tail {ts T} : Listing ts [(ts, T)] [] (some T)
  | statement {ts T ends rest parts es t} (hne : ends ≠ []) (hends : EndsOfLine ends)
      (hrest : Listing rest parts es t) :
      Listing (ts ++ (ends ++ rest)) ((ts, T) :: parts) (T :: es) t

/-- `Arguments ts parts`: the parts stand in `ts`, separated by commas. -/
inductive Arguments : List Token → List Part → Prop where
  | nil : Arguments [] []
  | last {ts T} : Arguments ts [(ts, T)]
  | cons {ts T comma rest part parts} (hcomma : comma.kind = .comma)
      (hrest : Arguments rest (part :: parts)) :
      Arguments (ts ++ comma :: rest) ((ts, T) :: part :: parts)

/-- `Derives d x ts t`: the tokens `ts` form a phrase of the kind `x` with the tree `t`, within a nesting
of `d`. -/
inductive Phrase.Derives : Nat → Phrase → List Token → Tree → Prop where
  | declaration {d opener name equal s v V} (ho : opener.kind = .varWord) (hn : name.IsName s)
      (he : equal.kind = .equal) (hv : Derives d expression v V) :
      Derives (d + 2) statement (opener :: name :: equal :: v)
        (.declaration (opener.span.union V.span) s V)
  | bareDeclaration {d opener name s} (ho : opener.kind = .varWord) (hn : name.IsName s) :
      Derives (d + 2) statement [opener, name]
        (.declaration (opener.span.union name.span) s (.literal name.span .null))
  | evaluation {d ts T} (h : Derives d expression ts T) : Derives (d + 1) statement ts T
  | assignment {d name equal s v V} (hn : name.IsName s) (he : equal.kind = .equal)
      (hv : Derives d expression v V) :
      Derives (d + 1) expression (name :: equal :: v) (.assignment (name.span.union V.span) s V)
  | operation {d ts T} (h : Derives d (layer .disjunction) ts T) : Derives d expression ts T
  | tighter {d l ts T} (h : Derives d l.tighter ts T) : Derives d (layer l) ts T
  | binary {d l op o a A b B} (ha : Derives (d + 1) (layer l) a A)
      (ho : l.operator? op.kind = some o) (hb : Derives d l.tighter b B) :
      Derives (d + 1) (layer l) (a ++ op :: b) (.binary (A.span.union B.span) o A B)
  | unary {d op o a A} (ho : sign? op.kind = some o) (ha : Derives d operand a A) :
      Derives (d + 1) operand (op :: a) (.unary (op.span.union A.span) o A)
  | unsigned {d ts T} (h : Derives d application ts T) : Derives d operand ts T
  | uncalled {d ts T} (h : Derives d primary ts T) : Derives d application ts T
  | call {d f F opener ts parts closer} (hf : Derives (d + 3) application f F)
      (ho : opener.kind = .leftParen) (hts : Arguments ts parts)
      (hparts : ∀ p ∈ parts, Derives d expression p.1 p.2) (hc : closer.kind = .rightParen) :
      Derives (d + 3) application (f ++ opener :: (ts ++ [closer]))
        (.call (F.span.union closer.span) F (parts.map Prod.snd))
  | literal {d t v} (h : literal? t = some v) : Derives (d + 3) primary [t] (.literal t.span v)
  | reference {d t s} (h : t.IsName s) : Derives (d + 3) primary [t] (.reference t.span s)
  | doBlock {d word b B} (hw : word.kind = .doWord) (hb : Derives d block b B) :
      Derives (d + 3) primary (word :: b) (.doBlock (word.span.union B.span) B)
  | loop {d word b B} (hw : word.kind = .loopWord) (hb : Derives d block b B) :
      Derives (d + 3) primary (word :: b) (.loop (word.span.union B.span) B)
  | parenthesized {d opener ts T closer} (ho : opener.kind = .leftParen)
      (h : Derives d expression ts T) (hc : closer.kind = .rightParen) :
      Derives (d + 4) primary (opener :: (ts ++ [closer]))
        (T.withSpan (opener.span.union closer.span))
  | block {d opener ends ts parts es t closer} (ho : opener.kind = .leftBrace)
      (hends : EndsOfLine ends) (hts : Listing ts parts es t)
      (hparts : ∀ p ∈ parts, Derives d statement p.1 p.2) (hc : closer.kind = .rightBrace) :
      Derives (d + 1) block (opener :: (ends ++ (ts ++ [closer])))
        (.block (opener.span.union closer.span) es t)

namespace TextUnit

/-- `Derives d u ts t`: the tokens `ts` form a whole text of the kind `u` with the tree `t`, within a
nesting of `d`. -/
inductive Derives (d : Nat) : TextUnit → List Token → Tree → Prop where
  | program {ends ts parts es t eof} (hends : EndsOfLine ends) (hts : Listing ts parts es t)
      (hparts : ∀ p ∈ parts, Phrase.Derives (d + 1) .statement p.1 p.2)
      (hdecl : ∀ p ∈ parts, ∃ s n e, p.2 = .declaration s n e) (heof : eof.kind = .endOfInput) :
      Derives d program (ends ++ (ts ++ [eof]))
        (.block (cover (es ++ t.toList)) (es ++ t.toList) none)
  | single {before ts T after eof} (hbefore : EndsOfLine before)
      (h : Phrase.Derives d .statement ts T) (hafter : EndsOfLine after)
      (heof : eof.kind = .endOfInput) :
      Derives d single (before ++ (ts ++ (after ++ [eof]))) T
  | statements {ends ts parts es t eof} (hends : EndsOfLine ends) (hts : Listing ts parts es t)
      (hparts : ∀ p ∈ parts, Phrase.Derives d .statement p.1 p.2)
      (heof : eof.kind = .endOfInput) :
      Derives d statements (ends ++ (ts ++ [eof])) (.block (cover (es ++ t.toList)) es t)

/-- The tokens form a whole text with the given tree. -/
def Derivable (u : TextUnit) (ts : List Token) (t : Tree) : Prop := ∃ d, Derives d u ts t

end TextUnit

end Curly
