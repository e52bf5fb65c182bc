import Curly.Tree.Basic
import Curly.Number.Remainder

/-!
# Operators on numbers
-/

namespace Curly.BinaryOperator

/-- What the operators that compute with numbers make of two of them. The others take values of all
kinds and have no entry. -/
def arithmetic? : BinaryOperator → Option (Float → Float → Value)
  | add => some fun x y => .number (x + y)
  | subtract => some fun x y => .number (x - y)
  | multiply => some fun x y => .number (x * y)
  | divide => some fun x y => .number (x / y)
  | modulo => some fun x y => .number (Binary.remainderOf x y)
  | greater => some fun x y => .bool (y < x)
  | greaterEqual => some fun x y => .bool (y ≤ x)
  | lesser => some fun x y => .bool (x < y)
  | lesserEqual => some fun x y => .bool (x ≤ y)
  | equal => none
  | notEqual => none
  | and => none
  | or => none

/-- Whether the right operand of an operator must not be zero. -/
def divides : BinaryOperator → Bool
  | divide | modulo => true
  | _ => false

end Curly.BinaryOperator
