import Curly.Text.Span
import Curly.Token.Kind
import Curly.Token.Table
import Curly.Value.Basic

/-!
# Trees

The trees that texts are read as. Every node knows the part of the text that it was read from.

## Main definitions

* `nestingLimit`: how many calls may be open at a time.
* `BinaryOperator`: the operators between two operands.
* `Tree`: a tree.
* `Tree.span`, `Tree.withSpan`: the span of a tree's root.
* `Tree.children`: the trees just below the root, from left to right.
* `Tree.calls`: how many calls are open between the evaluation of a node and that of one below it.
* `Tree.bareName?`: the name that a tree consists of.
-/

namespace Curly

/-- The greatest number of calls that may be open at a time where texts are read and trees are evaluated
or shown. Counted are the calls that go deeper into a text or a tree; whoever reads, evaluates or shows
has all the room for them. -/
def nestingLimit : Nat := 1000

/-- The operators between two operands. -/
inductive BinaryOperator where
  | add
  | subtract
  | multiply
  | divide
  | modulo
  | equal
  | notEqual
  | greater
  | greaterEqual
  | lesser
  | lesserEqual
  | and
  | or
deriving DecidableEq

namespace BinaryOperator

/-- All operators. -/
def all : List BinaryOperator :=
  [add, subtract, multiply, divide, modulo, equal, notEqual, greater, greaterEqual, lesser,
    lesserEqual, and, or]

/-- The spelling of the operator in messages and outlines. -/
def symbol : BinaryOperator → String
  | add => "+"
  | subtract => "-"
  | multiply => "*"
  | divide => "/"
  | modulo => "%"
  | equal => "=="
  | notEqual => "!="
  | greater => ">"
  | greaterEqual => ">="
  | lesser => "<"
  | lesserEqual => "<="
  | and => "and"
  | or => "or"

/-- The operator of the given spelling. -/
def ofSymbol? (s : String) : Option BinaryOperator := all.find? fun op => op.symbol == s

/-- The operator that a token kind stands for between two operands. The conjunction and the
disjunction have two spellings each. -/
def ofKind? : TokenKind → Option BinaryOperator
  | .plus => some add
  | .minus => some subtract
  | .star => some multiply
  | .slash => some divide
  | .percent => some modulo
  | .doubleEqual => some equal
  | .bangEqual => some notEqual
  | .greater => some greater
  | .greaterEqual => some greaterEqual
  | .lesser => some lesser
  | .lesserEqual => some lesserEqual
  | .andWord | .ampersand => some and
  | .orWord | .pipe => some or
  | _ => none

end BinaryOperator

/-- A tree. The first argument of every constructor is the part of the text that the tree was read
from. -/
inductive Tree where
  /-- A value that is written out. -/
  | literal (span : Span) (value : Value)
  /-- The value bound to a name. -/
  | reference (span : Span) (name : String)
  /-- The value bound to a name that is not known. Only a table that makes something other than a word an
  identifier brings one about. -/
  | nameless (span : Span)
  /-- A new binding in the innermost scope. -/
  | declaration (span : Span) (name : String) (initializer : Tree)
  /-- A new value for an existing binding. -/
  | assignment (span : Span) (name : String) (value : Tree)
  /-- An operator between two operands. -/
  | binary (span : Span) (op : BinaryOperator) (left right : Tree)
  /-- An operator in front of its operand. -/
  | unary (span : Span) (op : UnaryOperator) (operand : Tree)
  /-- A call. -/
  | call (span : Span) (callee : Tree) (args : List Tree)
  /-- Statements that are run for their effects, and a last one for its value. -/
  | block (span : Span) (statements : List Tree) (tail : Option Tree)
  /-- A block that is run once. -/
  | doBlock (span : Span) (body : Tree)
  /-- A block that is run again and again. -/
  | loop (span : Span) (body : Tree)
  /-- A node without any meaning. No text is read as one. -/
  | bare (span : Span)
deriving BEq

namespace Tree

instance : Inhabited Tree := ⟨bare .origin⟩

/-- The part of the text that the tree was read from. -/
def span : Tree → Span
  | literal s _ => s
  | reference s _ => s
  | nameless s => s
  | declaration s _ _ => s
  | assignment s _ _ => s
  | binary s _ _ _ => s
  | unary s _ _ => s
  | call s _ _ => s
  | block s _ _ => s
  | doBlock s _ => s
  | loop s _ => s
  | bare s => s

/-- The tree with another span at its root. -/
def withSpan (s : Span) : Tree → Tree
  | literal _ v => literal s v
  | reference _ n => reference s n
  | nameless _ => nameless s
  | declaration _ n e => declaration s n e
  | assignment _ n e => assignment s n e
  | binary _ op a b => binary s op a b
  | unary _ op a => unary s op a
  | call _ f args => call s f args
  | block _ es t => block s es t
  | doBlock _ b => doBlock s b
  | loop _ b => loop s b
  | bare _ => bare s

/-- The name of the root's kind. -/
def kindName : Tree → String
  | literal .. => "Literal"
  | reference .. => "Variable"
  | nameless .. => "Variable"
  | declaration .. => "Declaration"
  | assignment .. => "Assignment"
  | binary .. => "BinaryExpr"
  | unary .. => "UnaryExpr"
  | call .. => "Call"
  | block .. => "Block"
  | doBlock .. => "DoBlock"
  | loop .. => "Loop"
  | bare .. => "Node"

/-- What stands in the place of a name that is not known. -/
def unknownName : String := "None"

/-- The trees just below the root, from left to right. -/
def children : Tree → List Tree
  | literal .. => []
  | reference .. => []
  | nameless .. => []
  | declaration _ _ e => [e]
  | assignment _ _ e => [e]
  | binary _ _ a b => [a, b]
  | unary _ _ a => [a]
  | call _ f args => f :: args
  | block _ es t => es ++ t.toList
  | doBlock _ b => [b]
  | loop _ b => [b]
  | bare _ => []

/-- The number of calls that are open between the evaluation of a node and that of the nodes just below
it. Operators between operands, statements and loops have a call of their own. -/
def calls : Tree → Nat
  | binary .. => 2
  | block .. => 2
  | loop .. => 2
  | _ => 1

/-- The name that a tree consists of, if it is written without parentheses. A name in parentheses
covers more of the text than the name itself. -/
def bareName? : Tree → Option String
  | reference s n => if s.length = n.length then some n else none
  | _ => none

@[simp] theorem span_withSpan (s : Span) (t : Tree) : (t.withSpan s).span = s := by
  cases t <;> rfl

@[simp] theorem withSpan_span (t : Tree) : t.withSpan t.span = t := by
  cases t <;> rfl

theorem calls_pos (t : Tree) : 0 < t.calls := by
  cases t <;> exact Nat.succ_pos _

theorem calls_le (t : Tree) : t.calls ≤ 2 := by
  unfold calls
  split <;> decide

/-- There is less room below a node than at it. -/
theorem sub_calls_lt (t : Tree) (calls : Nat) : calls + 1 - t.calls < calls + 1 :=
  Nat.sub_lt (Nat.succ_pos calls) t.calls_pos

@[simp] theorem children_withSpan (s : Span) (t : Tree) : (t.withSpan s).children = t.children := by
  cases t <;> rfl

end Tree

end Curly
