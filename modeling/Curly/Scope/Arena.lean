import Curly.Scope.Chain

/-!
# Arenas of scopes

A growing family of scopes, each with at most one scope around it. Several scopes may lie in the same
one and then see the same bindings of it.

## Main definitions

* `Arena`: the family. Scopes are known by their number.
* `Arena.path`: a scope and those around it, from the inside out.
* `Arena.chain`: the bindings on that path.
-/

namespace Curly

/-- A scope of an arena. -/
structure Arena.Scope where
  /-- The scope around it. -/
  parent : Option Nat
  /-- What it binds. -/
  bindings : Bindings

/-- A family of scopes. The scope around a scope was there before it. -/
structure Arena where
  /-- The scopes by number. -/
  scopes : Array Arena.Scope

namespace Arena

/-- The arena with one scope that lies in no other. -/
def root : Arena := ⟨#[⟨none, []⟩]⟩

/-- The scope with a given number. -/
def scope? (a : Arena) (id : Nat) : Option Scope := a.scopes[id]?

/-- A scope and at most `rounds` of those around it, from the inside out. -/
def pathUpTo (a : Arena) : (rounds : Nat) → (id : Nat) → List Nat
  | 0, _ => []
  | rounds + 1, id =>
    match a.scope? id with
    | none => []
    | some s =>
      id :: match s.parent with
        | none => []
        | some parent => pathUpTo a rounds parent

/-- A scope and all those around it, from the inside out. -/
def path (a : Arena) (id : Nat) : List Nat := a.pathUpTo a.scopes.size id

/-- The bindings of a scope. -/
def bindings (a : Arena) (id : Nat) : Bindings :=
  match a.scope? id with
  | some s => s.bindings
  | none => []

/-- The bindings of a scope and of those around it, from the inside out. -/
def chain (a : Arena) (id : Nat) : Chain := (a.path id).map a.bindings

/-- The arena with a new scope inside a given one, and the number of the new scope. -/
def child (a : Arena) (id : Nat) : Nat × Arena :=
  (a.scopes.size, ⟨a.scopes.push ⟨some id, []⟩⟩)

/-- The arena with a name bound in a scope. -/
def declare (a : Arena) (id : Nat) (name : String) (value : Value) : Arena :=
  ⟨a.scopes.modify id fun s => { s with bindings := s.bindings.bind name value }⟩

/-- The value of a name in a scope. -/
def find? (a : Arena) (id : Nat) (name : String) : Option Value := (a.chain id).find? name

/-- Whether a name is bound in a scope or around it. -/
def binds (a : Arena) (id : Nat) (name : String) : Bool := (a.chain id).binds name

/-- The scope that says what a name means in a given scope. -/
def owner? (a : Arena) (id : Nat) (name : String) : Option Nat := do
  let index ← (a.chain id).owner? name
  (a.path id)[index]?

/-- The number of scopes around a scope. -/
def depth (a : Arena) (id : Nat) : Nat := (a.chain id).depth

/-- A scope in words: its names, and whether it lies in another scope. -/
def inspect (a : Arena) (id : Nat) : String :=
  let outer := match (a.scope? id).bind Scope.parent with
    | some _ => ", parent=#ID"
    | none => ""
  "<Scope bindings=[" ++ String.intercalate ", " (a.bindings id).names ++ "]" ++ outer ++ ">"

end Arena

end Curly
