import Curly.Problem.Basic
import Curly.Text.Numeral
import Curly.Tree.Basic

/-!
# Faults of evaluation

What can end the evaluation of a tree without a value.

## Main definitions

* `RuntimeCause`, `RuntimeError`: what goes wrong in the language, and where.
* `RunFault`: everything that can end a run. Running out of room or of patience, and what goes wrong in
  the evaluator itself, is kept apart from the errors of the language.
* `RunFault.hostMessage?`: what the evaluator says about a failure of its own.
-/

namespace Curly

/-- What goes wrong in the evaluation of a tree. -/
inductive RuntimeCause where
  /-- A name has no binding. -/
  | undefinedVariable (name : String)
  /-- Something is called. -/
  | unsupportedCall
  /-- A loop ran for as many rounds as it may, a number that can be written. -/
  | loopLimit (limit : Int)
  /-- An operator between numbers is applied to something else. -/
  | notNumbers (op : BinaryOperator) (left right : ValueKind)
  /-- Something other than a number is negated. -/
  | notNegatable (kind : ValueKind)
  /-- A number is divided by zero. -/
  | divisionByZero
  /-- A node without meaning is evaluated. -/
  | meaningless
  /-- The tree is nested too deeply. -/
  | nestedTooDeeply
deriving DecidableEq

namespace RuntimeCause

/-- The category of the problem. -/
def category : RuntimeCause → Category
  | undefinedVariable _ => .undefinedVariable
  | unsupportedCall => .unsupported
  | loopLimit _ => .loopLimit
  | notNumbers .. => .type
  | notNegatable _ => .type
  | divisionByZero => .runtime
  | meaningless => .runtime
  | nestedTooDeeply => .runtime

/-- The problem in words. -/
def message : RuntimeCause → String
  | undefinedVariable name => Problem.undefinedMessage name
  | unsupportedCall => "calling functions is not supported yet"
  | loopLimit limit => "loop exceeded " ++ toString limit ++ " iterations"
  | notNumbers op left right =>
    "operator '" ++ op.symbol ++ "' expects two numbers, got " ++ left.name ++ " and " ++ right.name
  | notNegatable kind => "cannot negate a value of type " ++ kind.name
  | divisionByZero => "division by zero"
  | meaningless => "cannot evaluate node Node"
  | nestedTooDeeply => "evaluation nested too deeply"

/-- The name without a binding, where that is the problem. -/
def unboundName : RuntimeCause → Option String
  | undefinedVariable name => some name
  | _ => none

end RuntimeCause

/-- What goes wrong in the evaluation of a tree, at its place. -/
structure RuntimeError where
  /-- What goes wrong. -/
  cause : RuntimeCause
  /-- Where it goes wrong. -/
  span : Span
deriving DecidableEq

namespace RuntimeError

/-- The error as a problem. -/
def toProblem (e : RuntimeError) : Problem :=
  ⟨e.cause.category, e.cause.message, e.span, e.cause.unboundName⟩

end RuntimeError

/-- Everything that can end a run without a value. -/
inductive RunFault where
  /-- An error of the language. -/
  | error (e : RuntimeError)
  /-- The tree is nested too deeply. -/
  | tooDeep
  /-- A loop without a bound went on for longer than anyone waits. -/
  | unfinished
  /-- The statements of a tree that is no block are to be run. -/
  | notABlock
  /-- A loop ran for as many rounds as it may, and this number has too many digits for a message. -/
  | unwritable (limit : Int)
  /-- An operator that does not compute with numbers came to two of them. -/
  | noArithmetic (op : BinaryOperator)
deriving DecidableEq

namespace RunFault

/-- What is said about a fault that is neither an error of the language nor a want of room or
patience. -/
def hostMessage? : RunFault → Option String
  | error _ => none
  | tooDeep => none
  | unfinished => none
  | notABlock => some "there are no statements to run"
  | unwritable _ => some ("Exceeds the limit (" ++ toString Numeral.maxDigits ++
      " digits) for integer string conversion; use sys.set_int_max_str_digits() to increase the limit")
  | noArithmetic op => some ("operator '" ++ op.symbol ++ "' does not compute with numbers")

end RunFault

end Curly
