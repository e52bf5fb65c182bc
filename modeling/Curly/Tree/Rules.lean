import Curly.Tree.Basic
import Curly.Tree.Cursor

/-!
# The rules of reading

One rule for each construct of the language. Expressions are read by climbing binding powers: the right
operand of an operator takes in only operators that bind stronger, so that operators of one power
group to the left. An assignment binds weaker than every operator and groups to the right.

The rules call one another, and each call is one step deeper in the nesting. The rules at the bottom
accept nothing, which bounds the number of calls that are open at a time. Repetition within a construct
is a loop and goes no deeper.

## Main definitions

* `Setting`: the table in force and a bound on the repetitions in one construct.
* `Rules`: the rules that are called from a rule.
* `Rule.expression`, `Rule.operand` and the other rules, given those that they call.
* `rulesAt`: the rules with room for a given number of calls.
-/

namespace Curly

/-- What all rules share. -/
structure Setting where
  /-- The table in force. -/
  table : Table
  /-- A bound on the repetitions in one construct. Every repetition takes a token, so the number of
  tokens and one more is always enough. -/
  rounds : Nat

/-- The rules that call one another. -/
structure Rules where
  /-- A declaration or an expression. -/
  statement : ReadM Tree
  /-- A declaration. -/
  declaration : ReadM Tree
  /-- Statements in braces. -/
  block : ReadM Tree
  /-- An expression whose operators bind stronger than the given power. -/
  expression : Int → ReadM Tree
  /-- An operand with the operators in front of it. -/
  operand : ReadM Tree
  /-- What an operand begins with behind the operators in front of it. -/
  primary : ReadM Tree
  /-- An expression in parentheses. -/
  parenthesized : ReadM Tree
  /-- The call of a tree that was read before, if there is one. -/
  call : Option Tree → ReadM Tree

/-- The rules without room for a single call, which read nothing. -/
def Rules.bottom : Rules where
  statement := throw .tooDeep
  declaration := throw .tooDeep
  block := throw .tooDeep
  expression := fun _ => throw .tooDeep
  operand := throw .tooDeep
  primary := throw .tooDeep
  parenthesized := throw .tooDeep
  call := fun _ => throw .tooDeep

namespace Rule

open Cursor

/-- The name that an identifier says. Where a table makes something other than a word an identifier, it
says none. -/
def nameOf? (t : Token) : Option String :=
  match t.payload with
  | .name s => some s
  | _ => none

/-- The tree of an identifier. -/
def referenceTo (t : Token) : Tree :=
  match nameOf? t with
  | some name => .reference t.span name
  | none => .nameless t.span

/-- The value that a literal says, null if it says none. -/
def valueOf (t : Token) : Value :=
  match t.payload with
  | .number x => .number x
  | .string s => .string s
  | _ => .null

variable (setting : Setting) (below : Rules)

/-- Takes any number of ends of line. -/
def skipEndsOfLine : ReadM PUnit :=
  repeatUpTo (fun (_ : PUnit) => do
    if ← nextIs .endOfLine then
      let _ ← advance
      return .inl ⟨⟩
    else return .inr ⟨⟩) setting.rounds ⟨⟩

/-- Takes the end of line after a statement, unless the text ends there. -/
def endOfStatement : ReadM PUnit := do
  let t ← peek
  match t.kind with
  | .endOfLine =>
    let _ ← advance
    return ⟨⟩
  | .endOfInput => return ⟨⟩
  | _ => failAt t (.expectedToken .endOfLine t)

/-- What follows the name of a declaration: an equals sign and an expression, or nothing, in which case
the name is bound to null. Yields the span of the declaration and its initializer. -/
def initializer (opener name : Token) : ReadM (Span × Tree) := do
  let t ← peek
  match t.kind with
  | .equal =>
    let _ ← advance
    let value ← below.expression 0
    return (opener.span.union value.span, value)
  | .endOfLine | .endOfInput | .rightBrace =>
    return (opener.span.union name.span, .literal name.span .null)
  | _ => failAt t (.malformedDeclaration t)

/-- A declaration, `var name` or `var name = expression`. -/
def declaration : ReadM Tree := do
  let opener ← expect .varWord
  let name ← expect .identifier
  let (span, value) ← initializer below opener name
  let declared := (nameOf? name).getD Tree.unknownName
  note (.declaration declared span)
  return .declaration span declared value

/-- A statement: a declaration or an expression. -/
def statement : ReadM Tree := do
  let t ← peek
  match t.kind with
  | .varWord => below.declaration
  | .funcWord => failAt t .reservedFunction
  | _ => below.expression 0

/-- The next statement of a block after those in `done`, which has the latest first, or the end of the
block. The last statement is the tail of the block if no end of line follows it. -/
def blockStep (opener : Token) (done : List Tree) :
    ReadM (List Tree ⊕ List Tree × Option Tree) := do
  let t ← peek
  match t.kind with
  | .rightBrace => return .inr (done.reverse, none)
  | .endOfInput => failAt opener (.unclosed .leftBrace)
  | _ =>
    let s ← below.statement
    let t ← peek
    match t.kind with
    | .endOfLine =>
      skipEndsOfLine setting
      return .inl (s :: done)
    | .rightBrace => return .inr (done.reverse, some s)
    | .endOfInput => failAt opener (.unclosed .leftBrace)
    | _ => failAt t (.expectedEndOfStatement t)

/-- A block: statements in braces, separated by ends of line. -/
def block : ReadM Tree := do
  let opener ← expect .leftBrace
  skipEndsOfLine setting
  let (statements, tail) ← repeatUpTo (blockStep setting below opener) setting.rounds []
  let closer ← advance
  return .block (opener.span.union closer.span) statements tail

/-- An expression in parentheses. The parentheses count as part of it. -/
def parenthesized : ReadM Tree := do
  let opener ← expect .leftParen
  let inner ← below.expression 0
  let t ← peek
  match t.kind with
  | .endOfInput => failAt opener (.unclosed .leftParen)
  | .rightParen =>
    let _ ← advance
    return inner.withSpan (opener.span.union t.span)
  | _ => failAt t (.expectedToken .rightParen t)

/-- The next argument of a call after those in `done`, which has the latest first, with what follows
it. -/
def argumentStep (opener : Token) (done : List Tree) : ReadM (List Tree ⊕ List Tree) := do
  let arg ← below.expression 0
  let t ← peek
  match t.kind with
  | .comma =>
    let _ ← advance
    return .inl (arg :: done)
  | .rightParen => return .inr (arg :: done).reverse
  | .endOfInput => failAt opener (.unclosed .leftParen)
  | _ => failAt t (.expectedEndOfArgument t)

/-- The arguments of a call up to its closing parenthesis, which is not taken. -/
def arguments (opener : Token) : ReadM (List Tree) := do
  if ← nextIs .rightParen then return []
  else repeatUpTo (argumentStep below opener) setting.rounds []

/-- The arguments of a call in their parentheses, separated by commas, and the closing parenthesis. -/
def argumentList : ReadM (List Tree × Token) := do
  let opener ← expect .leftParen
  let args ← arguments setting below opener
  let closer ← advance
  return (args, closer)

/-- The call of a tree that was read before, which goes as far as the arguments. Without one the
arguments are read all the same, and only then it shows that there is nothing to call. -/
def call (callee : Option Tree) : ReadM Tree := do
  let (args, closer) ← argumentList setting below
  match callee with
  | some callee => return .call (callee.span.union closer.span) callee args
  | none => throw .missingCallee

/-- A literal, a name, a block behind its word, or an expression in parentheses. -/
def primary : ReadM Tree := do
  let t ← peek
  match t.kind with
  | .string | .number =>
    let _ ← advance
    return .literal t.span (valueOf t)
  | .trueWord =>
    let _ ← advance
    return .literal t.span (.bool true)
  | .falseWord =>
    let _ ← advance
    return .literal t.span (.bool false)
  | .identifier =>
    let _ ← advance
    return referenceTo t
  | .doWord =>
    let _ ← advance
    let body ← below.block
    return .doBlock (t.span.union body.span) body
  | .loopWord =>
    let _ ← advance
    let body ← below.block
    return .loop (t.span.union body.span) body
  | .leftParen => below.parenthesized
  | .funcWord => failAt t .reservedFunction
  | .varWord => failAt t .misplacedDeclaration
  | .endOfInput => failAt t .missingExpression
  | _ => failAt t (.expectedExpression t)

/-- One more call of `callee`, if an opening parenthesis follows. -/
def callStep (callee : Tree) : ReadM (Tree ⊕ Tree) := do
  if ← nextIs .leftParen then
    let tree ← below.call (some callee)
    return .inl tree
  else return .inr callee

/-- The operand behind `t`, which the table lists as an operator of the given name. Whether there is an
operator of this name shows only when the operand is read. -/
def signed (t : Token) (name : String) : ReadM Tree := do
  let _ ← advance
  let inner ← below.operand
  match UnaryOperator.ofName? name with
  | some op => return .unary (t.span.union inner.span) op inner
  | none => throw (.noSign name)

/-- An operand: operators in front of it, then a primary expression and any number of calls. -/
def operand : ReadM Tree := do
  let t ← peek
  match setting.table.unary? t.kind with
  | some name => signed below t name
  | none =>
    let first ← below.primary
    repeatUpTo (callStep below) setting.rounds first

/-- The name that an assignment to `left` is for, at the equals sign `t`. It cannot be told whether an
identifier that says no name stands in parentheses. -/
def target (t : Token) (left : Tree) : ReadM String :=
  match left with
  | .nameless _ => throw .namelessTarget
  | _ =>
    match left.bareName? with
    | none => failAt t .invalidTarget
    | some name => return name

/-- An assignment to `left`, at the equals sign `t`. -/
def assignment (t : Token) (left : Tree) : ReadM Tree := do
  let name ← target t left
  let _ ← advance
  let value ← below.expression 0
  return .assignment (left.span.union value.span) name value

/-- The operator `t` of power `p` with its right operand after `left`. -/
def infixed (t : Token) (p : Nat) (left : Tree) : ReadM Tree := do
  let _ ← advance
  let right ← below.expression p
  match BinaryOperator.ofKind? t.kind with
  | none => throw (.noOperator t.kind)
  | some op => return .binary (left.span.union right.span) op left right

/-- One more operator with its right operand after `left`, if one follows that binds stronger than
`power`. An assignment binds weaker than all operators and ends the expression. -/
def climbStep (power : Int) (left : Tree) : ReadM (Tree ⊕ Tree) := do
  let t ← peek
  if t.kind = .equal then
    if 0 < power then return .inr left
    else
      let tree ← assignment below t left
      return .inr tree
  else
    match setting.table.bindingPower? t.kind with
    | none => return .inr left
    | some p =>
      if (p : Int) ≤ power then return .inr left
      else
        let tree ← infixed below t p left
        return .inl tree

/-- An expression whose operators bind stronger than the given power. -/
def expression (power : Int) : ReadM Tree := do
  let first ← below.operand
  repeatUpTo (climbStep setting below power) setting.rounds first

end Rule

/-- The rules with room for the given number of calls, their own included. -/
def rulesAt (setting : Setting) : Nat → Rules
  | 0 => Rules.bottom
  | calls + 1 =>
    { statement := fun c => Rule.statement (rulesAt setting calls) c
      declaration := fun c => Rule.declaration (rulesAt setting calls) c
      block := fun c => Rule.block setting (rulesAt setting calls) c
      expression := fun power c => Rule.expression setting (rulesAt setting calls) power c
      operand := fun c => Rule.operand setting (rulesAt setting calls) c
      primary := fun c => Rule.primary (rulesAt setting calls) c
      parenthesized := fun c => Rule.parenthesized (rulesAt setting calls) c
      call := fun callee c => Rule.call setting (rulesAt setting calls) callee c }

end Curly
