import Curly.Tree.Rules

/-!
# Units of text

What a whole text may be: a program, one statement, or a list of statements.

## Main definitions

* `TextUnit`: the three units.
* `TextUnit.read`: reads a unit from a cursor up to the end of input.
* `Tree.readWithin`: reads a text as a unit with room for a given number of calls.
* `Tree.read`: reads a text as a unit.
-/

namespace Curly

/-- What a whole text may be. -/
inductive TextUnit where
  /-- Declarations, each on a line of its own. -/
  | program
  /-- Exactly one statement. -/
  | single
  /-- Statements separated by ends of line, the last with or without one. -/
  | statements
deriving DecidableEq

namespace TextUnit

open Cursor Rule

/-- The span from the first of some trees to the last. -/
def cover (trees : List Tree) : Span :=
  match trees.head?, trees.getLast? with
  | some first, some last => first.span.union last.span
  | _, _ => .origin

variable (setting : Setting) (rules : Rules)

/-- The next declaration of a program after those in `done`, which has the latest first, or the end of
the program. -/
def programStep (done : List Tree) : ReadM (List Tree ⊕ List Tree) := do
  let t ← peek
  match t.kind with
  | .endOfInput => return .inr done.reverse
  | .funcWord => failAt t .reservedFunction
  | .varWord =>
    let d ← rules.declaration
    endOfStatement
    skipEndsOfLine setting
    return .inl (d :: done)
  | _ => failAt t (.expectedDeclaration t)

/-- A program: declarations up to the end of input. -/
def readProgram : ReadM Tree := do
  skipEndsOfLine setting
  let declarations ← repeatUpTo (programStep setting rules) setting.rounds []
  return .block (cover declarations) declarations none

/-- One statement, with ends of line around it. -/
def readSingle : ReadM Tree := do
  skipEndsOfLine setting
  let s ← rules.statement
  skipEndsOfLine setting
  let t ← peek
  if t.kind = .endOfInput then return s
  else failAt t (.expectedToken .endOfInput t)

/-- The next statement after those in `done`, which has the latest first, or the end of input. A
statement at the very end is the tail. -/
def statementsStep (done : List Tree) : ReadM (List Tree ⊕ List Tree × Option Tree) := do
  if ← nextIs .endOfInput then return .inr (done.reverse, none)
  else
    let s ← rules.statement
    if ← nextIs .endOfInput then return .inr (done.reverse, some s)
    else
      endOfStatement
      skipEndsOfLine setting
      return .inl (s :: done)

/-- Statements up to the end of input. -/
def readStatements : ReadM Tree := do
  skipEndsOfLine setting
  let (entries, tail) ← repeatUpTo (statementsStep setting rules) setting.rounds []
  return .block (cover (entries ++ tail.toList)) entries tail

/-- Reads a unit up to the end of input. -/
def read : TextUnit → ReadM Tree
  | program => readProgram setting rules
  | single => readSingle setting rules
  | statements => readStatements setting rules

end TextUnit

namespace Setting

/-- The setting for a stream of tokens. -/
def ofStream (table : Table) (s : Stream) : Setting := ⟨table, s.tokens.length + 1⟩

/-- The rules with all the room there is. -/
def rules (setting : Setting) : Rules := rulesAt setting nestingLimit

end Setting

namespace Tree

/-- Reads a text of the language as a unit, with room for the given number of calls. The cursor tells how
far the reading came. -/
def readWithin (calls : Nat) (unit : TextUnit) (text : List Char) :
    EStateM.Result ReadFault Cursor Tree :=
  let stream := Stream.ofText .standard text
  let setting := Setting.ofStream .standard stream
  unit.read setting (rulesAt setting calls) (.ofStream stream)

/-- Reads a text of the language as a unit. -/
def read (unit : TextUnit) (text : List Char) : EStateM.Result ReadFault Cursor Tree :=
  readWithin nestingLimit unit text

end Tree

end Curly
