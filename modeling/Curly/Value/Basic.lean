/-!
# Values

What the evaluation of a tree yields.

## Main definitions

* `Value`: null, truth values, numbers, strings, and foreign integers.
* `ValueKind`: the kinds of values.
* `Value.truthy`: the truth value that stands for a value in a condition.
* `Value.same`: equality as the language sees it. Values of different kinds are never equal, and NaN
  is not equal to itself.
-/

namespace Curly

/-- A value of the language, or a foreign integer. -/
inductive Value where
  /-- The absent value. -/
  | null
  /-- A truth value. -/
  | bool (b : Bool)
  /-- A number. -/
  | number (x : Float)
  /-- A string. -/
  | string (s : String)
  /-- An integer of unlimited size. No text of the language yields one; it enters by the bindings or
  the tree that a caller gives, and no operator takes it for a number. -/
  | foreign (n : Int)
deriving DecidableEq

/-- The kinds of values. -/
inductive ValueKind where
  | null
  | bool
  | number
  | string
  | foreign
deriving DecidableEq

namespace ValueKind

/-- The name of a kind in error messages. -/
def name : ValueKind → String
  | null => "null"
  | bool => "bool"
  | number => "number"
  | string => "string"
  | foreign => "int"

end ValueKind

namespace Value

instance : Inhabited Value := ⟨null⟩

/-- The kind of a value. -/
def kind : Value → ValueKind
  | null => .null
  | bool _ => .bool
  | number _ => .number
  | string _ => .string
  | foreign _ => .foreign

/-- The truth value that stands for a value: null, false and zero are false, all else is true. -/
def truthy : Value → Bool
  | null => false
  | bool b => b
  | number x => !(x == 0)
  | string _ => true
  | foreign _ => true

/-- Equality as the language sees it. -/
def same : Value → Value → Bool
  | null, null => true
  | bool a, bool b => a == b
  | number x, number y => x == y
  | string s, string t => s == t
  | foreign m, foreign n => m == n
  | _, _ => false

end Value

end Curly
