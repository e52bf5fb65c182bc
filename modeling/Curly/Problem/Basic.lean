import Curly.Text.Span

/-!
# Problems

A problem is what goes wrong with a text, at one place in it.

## Main definitions

* `Category`: the kinds of problems, ordered by generality.
* `Problem`: a category, a message and a span.
-/

namespace Curly

/-- The kinds of problems. -/
inductive Category where
  /-- Any problem. -/
  | general
  /-- The text cannot be cut into tokens. -/
  | lexical
  /-- The tokens make no tree. -/
  | syntactic
  /-- The evaluation of a tree fails. -/
  | runtime
  /-- An operator is applied to values of a wrong kind. -/
  | type
  /-- A name has no binding. -/
  | undefinedVariable
  /-- The construct has no meaning yet. -/
  | unsupported
  /-- A loop ran for more rounds than it may. -/
  | loopLimit
deriving DecidableEq

namespace Category

/-- All categories. -/
def all : List Category :=
  [general, lexical, syntactic, runtime, type, undefinedVariable, unsupported, loopLimit]

/-- The name of the category. -/
def name : Category → String
  | general => "BraceError"
  | lexical => "LexError"
  | syntactic => "ParseError"
  | runtime => "BraceRuntimeError"
  | type => "BraceTypeError"
  | undefinedVariable => "UndefinedVariable"
  | unsupported => "UnsupportedOperation"
  | loopLimit => "LoopLimitExceeded"

/-- The headline of a problem of this category. -/
def label : Category → String
  | general => "Error"
  | lexical => "LexError"
  | syntactic => "ParseError"
  | runtime => "RuntimeError"
  | type => "TypeError"
  | undefinedVariable => "UndefinedVariable"
  | unsupported => "UnsupportedOperation"
  | loopLimit => "LoopLimitExceeded"

/-- The category of the given name. -/
def ofName? (s : String) : Option Category := all.find? fun c => c.name == s

/-- The categories that a category falls under, itself included, from the most special to the most
general. -/
def ancestors : Category → List Category
  | general => [general]
  | lexical => [lexical, general]
  | syntactic => [syntactic, general]
  | runtime => [runtime, general]
  | type => [type, runtime, general]
  | undefinedVariable => [undefinedVariable, runtime, general]
  | unsupported => [unsupported, runtime, general]
  | loopLimit => [loopLimit, runtime, general]

theorem mem_all (c : Category) : c ∈ all := by
  cases c <;> decide

theorem ofName?_name (c : Category) : ofName? c.name = some c := by
  cases c <;> decide

end Category

/-- What goes wrong with a text, at one place in it. -/
structure Problem where
  /-- The kind of the problem. -/
  category : Category
  /-- What is wrong, in words. -/
  message : String
  /-- Where it is wrong. -/
  span : Span
  /-- The name that has no binding, when that is the problem. -/
  unboundName : Option String := none
deriving DecidableEq

namespace Problem

/-- The message about a name without a binding. -/
def undefinedMessage (name : String) : String := "variable '" ++ name ++ "' is not defined"

/-- The problem of a name without a binding. -/
def undefinedVariable (name : String) (span : Span) : Problem :=
  ⟨.undefinedVariable, undefinedMessage name, span, some name⟩

/-- The headline of the problem. -/
def label (p : Problem) : String := p.category.label

end Problem

end Curly
