import Curly.Run.Fault
import Curly.Scope.Chain

/-!
# The state of a run

## Main definitions

* `Run`: the scopes, the node that was begun last, and what was written down.
* `RunM`: steps of a run. A step that fails leaves the state where it failed.
* `Run.inside`: a step inside a new scope, which is gone afterwards however the step ends.
-/

namespace Curly

/-- What a run writes down. -/
inductive Run.Note where
  /-- The evaluation of a node begins. The path says which child is taken at each node on the way from
  the root, the last choice first. -/
  | visit (path : List Nat)
  /-- A name is looked up at the node at the given path. The owner is given by the number of scopes
  inside it, if there is one. -/
  | lookUp (path : List Nat) (name : String) (owner : Option Nat)
  /-- A block begins, as deep as this in nested scopes. -/
  | enterBlock (depth : Nat)
  /-- A declaration hides a binding of an outer scope. -/
  | shadows (name : String)
  /-- A loop begins a round, counted from one. -/
  | round (n : Nat)
deriving DecidableEq

/-- The state of a run. -/
structure Run where
  /-- The scopes. -/
  scopes : Chain
  /-- The node whose evaluation, or whose arithmetic after its operands, was begun last. -/
  current : Option Tree
  /-- What was written down, the latest first, if anything is to be written down. -/
  journal : Option (List Run.Note)

/-- Steps of a run. -/
abbrev RunM := EStateM RunFault Run

namespace Run

/-- Writes something down. -/
@[inline] def note (n : Note) : RunM PUnit :=
  modify fun r => { r with journal := r.journal.map (n :: ·) }

/-- The scopes, in which a name is to be looked up for the node at the given path. -/
def scopesFor (path : List Nat) (name : String) : RunM Chain := do
  let r ← get
  note (.lookUp path name (r.scopes.owner? name))
  return r.scopes

/-- Makes a node the current one. -/
def setCurrent (t : Tree) : RunM PUnit := modify fun r => { r with current := some t }

/-- Fails with an error of the language. -/
def fail {α : Type} (cause : RuntimeCause) (span : Span) : RunM α := throw (.error ⟨cause, span⟩)

/-- A step inside a new scope, which is gone afterwards however the step ends. -/
def inside {α : Type} (step : RunM α) : RunM α := fun r =>
  match step { r with scopes := r.scopes.push } with
  | .ok a r => .ok a { r with scopes := r.scopes.pop }
  | .error e r => .error e { r with scopes := r.scopes.pop }

end Run

end Curly
