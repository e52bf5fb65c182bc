import Curly.Run.State
import Curly.Run.Operators

/-!
# Evaluation

The value of a tree in nested scopes. Operands are evaluated from left to right, and the right operand
of a conjunction or disjunction only if the left one leaves the result open. A block is run in a scope
of its own; a loop runs its body until something fails. Calls have no meaning yet: the callee is
evaluated and the call fails.

The evaluation of a node calls that of the nodes below it, through a call in between where a node has one
of its own. The evaluation at the bottom comes to nothing, which bounds the number of calls that are open
at a time.

## Main definitions

* `Limits`: how long loops may run.
* `Evaluation.node`: the evaluation of a node, given that of the nodes below it.
* `evaluationAt`: the evaluation with room for a given number of calls.
* `Tree.evaluateWithin`, `Tree.runWithin`: evaluation of a whole tree with room for a given number of calls,
  as a node of its own or as statements in the given innermost scope.
* `Tree.evaluate`, `Tree.run`: the same with all the room there is.
-/

namespace Curly

/-- How long loops may run. -/
structure Limits where
  /-- The number of rounds after which a loop fails, if loops are bounded. -/
  loop : Option Int
  /-- The number of rounds after which a run is given up, if loops are not bounded. -/
  patience : Nat := Nat.pow 10 18

/-- The evaluation of nodes, given the path to them. -/
abbrev Evaluation := List Nat → Tree → RunM Value

namespace Evaluation

open Run

/-- The evaluation without room for a single call. -/
def bottom : Evaluation := fun _ _ => throw .tooDeep

variable (limits : Limits) (below : Evaluation) (path : List Nat)

/-- Evaluates statements for their effects. The first of them is child `index` of the node at
`path`. -/
def each : (index : Nat) → List Tree → RunM PUnit
  | _, [] => return ⟨⟩
  | index, t :: rest => do
    let _ ← below (index :: path) t
    each (index + 1) rest

/-- Evaluates the statements of a block and then its tail, whose value is that of the block. -/
def statements (entries : List Tree) (tail : Option Tree) : RunM Value := do
  each below path 0 entries
  match tail with
  | none => return .null
  | some t => below (entries.length :: path) t

/-- How a loop ends once it ran for as many rounds as it may. The message says how many these are. -/
def roundsSpent (span : Span) : RunM Value :=
  match limits.loop with
  | some limit =>
    if Numeral.isWritable limit then fail (.loopLimit limit) span else throw (.unwritable limit)
  | none => throw .unfinished

/-- Runs the body of a loop for `left` more rounds, after `done` rounds. -/
def rounds (span : Span) (body : RunM Value) : (left done : Nat) → RunM Value
  | 0, _ => roundsSpent limits span
  | left + 1, done => do
    note (.round (done + 1))
    let _ ← body
    rounds span body left (done + 1)

/-- The number of rounds that a loop may run for. A negative bound is as good as zero. -/
def roundsAllowed : Nat :=
  match limits.loop with
  | some limit => limit.toNat
  | none => limits.patience

/-- Applies an operator to two numbers, at the node `t`. The remainder of an infinite dividend is not a
number, without any arithmetic. -/
def applyToNumbers (t : Tree) (op : BinaryOperator) (x y : Float) : RunM Value :=
  if op.divides && y == 0 then fail .divisionByZero t.span
  else if op = .modulo && x.isInf then return .number (0.0 / 0.0)
  else do
    setCurrent t
    match op.arithmetic? with
    | some f => return f x y
    | none => throw (.noArithmetic op)

/-- Applies an operator to the values of both operands of the node `t`. -/
def applyBinary (t : Tree) (op : BinaryOperator) (a b : Value) : RunM Value :=
  match op with
  | .equal => return .bool (a.same b)
  | .notEqual => return .bool (!a.same b)
  | _ =>
    match a, b with
    | .number x, .number y => applyToNumbers t op x y
    | _, _ => fail (.notNumbers op a.kind b.kind) t.span

/-- An operator between two operands, at the node `t`. -/
def binary (t : Tree) (op : BinaryOperator) (left right : Tree) : RunM Value := do
  let a ← below (0 :: path) left
  match op with
  | .and =>
    if a.truthy then
      let b ← below (1 :: path) right
      return .bool b.truthy
    else return .bool false
  | .or =>
    if a.truthy then return .bool true
    else
      let b ← below (1 :: path) right
      return .bool b.truthy
  | _ =>
    let b ← below (1 :: path) right
    applyBinary t op a b

/-- Applies an operator in front of its operand to the operand's value. -/
def applyUnary (span : Span) (op : UnaryOperator) (a : Value) : RunM Value :=
  match op with
  | .not => return .bool (!a.truthy)
  | .negate =>
    match a with
    | .number x => return .number (-x)
    | _ => fail (.notNegatable a.kind) span

/-- The value bound to a name. -/
def reference (span : Span) (name : String) : RunM Value := do
  match (← scopesFor path name).find? name with
  | some v => return v
  | none => fail (.undefinedVariable name) span

/-- Binds a name in the innermost scope. -/
def declare (name : String) (v : Value) : RunM Value := do
  let r ← get
  if r.scopes.shadows name then note (.shadows name)
  modify fun r => { r with scopes := r.scopes.declare name v }
  return .null

/-- An assignment. Which binding gets the value is settled before the value is known. -/
def assignment (span : Span) (name : String) (value : Tree) : RunM Value := do
  match (← scopesFor path name).owner? name with
  | none => fail (.undefinedVariable name) (.ofLength span.start name.length)
  | some index =>
    let v ← below (0 :: path) value
    modify fun r => { r with scopes := r.scopes.assign index name v }
    return v

/-- A block as a node of its own, in a new scope. -/
def block (entries : List Tree) (tail : Option Tree) : RunM Value := do
  let r ← get
  note (.enterBlock (r.scopes.depth + 1))
  inside (statements below path entries tail)

/-- The evaluation of a node by the evaluation of the nodes below it. -/
def node : Evaluation := fun path t => do
  note (.visit path)
  setCurrent t
  match t with
  | .literal _ v => return v
  | .reference span name => reference path span name
  | .nameless span => fail (.undefinedVariable Tree.unknownName) span
  | .declaration _ name e =>
    let v ← below (0 :: path) e
    declare name v
  | .assignment span name e => assignment below path span name e
  | .binary _ op a b => binary below path t op a b
  | .unary span op a =>
    let v ← below (0 :: path) a
    applyUnary span op v
  | .call span callee _ =>
    let _ ← below (0 :: path) callee
    fail .unsupportedCall span
  | .block _ entries tail => block below path entries tail
  | .doBlock _ body => below (0 :: path) body
  | .loop span body => rounds limits span (below (0 :: path) body) (roundsAllowed limits) 0
  | .bare span => fail .meaningless span

end Evaluation

/-- The evaluation with room for the given number of calls, its own included. -/
def evaluationAt (limits : Limits) : Nat → Evaluation
  | 0 => Evaluation.bottom
  | 1 => fun path t => Evaluation.node limits Evaluation.bottom path t
  | calls + 2 => fun path t =>
    Evaluation.node limits
      (if t.calls = 1 then evaluationAt limits (calls + 1) else evaluationAt limits calls) path t

/-- A node leaves the nodes below it the room that its own calls do not take. -/
theorem evaluationAt_succ (limits : Limits) (calls : Nat) (path : List Nat) (t : Tree) :
    evaluationAt limits (calls + 1) path t =
      Evaluation.node limits (evaluationAt limits (calls + 1 - t.calls)) path t := by
  cases calls with
  | zero => cases t <;> rfl
  | succ calls => cases t <;> rfl

/-- **Induction over the room**: what holds where there is none, and at a node if it holds below, holds of
every evaluation. -/
theorem evaluationAt_induction {limits : Limits} {motive : List Nat → Tree → RunM Value → Prop}
    (bottom : ∀ path t, motive path t (throw .tooDeep))
    (node : ∀ below path t, (∀ p u, motive p u (below p u)) →
      motive path t (Evaluation.node limits below path t))
    (calls : Nat) (path : List Nat) (t : Tree) : motive path t (evaluationAt limits calls path t) := by
  induction calls using Nat.strongRecOn generalizing path t with
  | ind calls ih =>
    cases calls with
    | zero => exact bottom path t
    | succ calls =>
      rw [evaluationAt_succ]
      exact node _ path t fun p u => ih _ (t.sub_calls_lt calls) p u

namespace Run

/-- A step in which nesting that is too deep is an error at the given place. -/
def boundedAt {α : Type} (span : Span) (step : RunM α) : RunM α := fun r =>
  match step r with
  | .error .tooDeep r => .error (.error ⟨.nestedTooDeeply, span⟩) r
  | result => result

end Run

namespace Tree

/-- Evaluates a tree in the given scopes, with room for the given number of calls. -/
def evaluateWithin (calls : Nat) (limits : Limits) (t : Tree) : RunM Value :=
  Run.boundedAt t.span (evaluationAt limits calls [] t)

/-- Runs the statements of a block directly in the innermost of the given scopes, with room for the given
number of calls, of which the statements take one. Any other tree has no statements. -/
def runWithin (calls : Nat) (limits : Limits) (t : Tree) : RunM Value :=
  Run.boundedAt t.span <|
    match t with
    | .block _ entries tail =>
      Evaluation.statements (evaluationAt limits (calls - 1)) [] entries tail
    | _ => throw .notABlock

/-- Evaluates a tree in the given scopes. -/
def evaluate (limits : Limits) (t : Tree) : RunM Value := evaluateWithin nestingLimit limits t

/-- Runs the statements of a block directly in the innermost of the given scopes. -/
def run (limits : Limits) (t : Tree) : RunM Value := runWithin nestingLimit limits t

end Tree

end Curly
