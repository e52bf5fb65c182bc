import Curly.Value.Basic

/-!
# Scopes

A scope binds names to values. Scopes are nested, and a name means what the innermost scope that binds
it says.

## Main definitions

* `Bindings`: the names bound by one scope, in the order in which they were first bound.
* `Chain`: nested scopes, the innermost first.
* `Chain.owner?`: how many scopes lie inside the one that binds a name.
* `Chain.find?`: the value of a name.
* `Chain.declare`, `Chain.assign`: a new binding in the innermost scope, a new value in a given one.
-/

namespace Curly

/-- The names bound by one scope with their values, in the order in which they were first bound. -/
abbrev Bindings := List (String × Value)

namespace Bindings

/-- The value of a name. -/
def find? (b : Bindings) (name : String) : Option Value := b.lookup name

/-- Whether a name is bound. -/
def binds (b : Bindings) (name : String) : Bool := (b.find? name).isSome

/-- The names, in order. -/
def names (b : Bindings) : List String := b.map Prod.fst

/-- The bindings with a name bound to a value. A name that was bound before keeps its place. -/
def bind (name : String) (value : Value) : Bindings → Bindings
  | [] => [(name, value)]
  | (n, v) :: rest => if n = name then (name, value) :: rest else (n, v) :: bind name value rest

@[simp] theorem find?_nil (name : String) : find? [] name = none := rfl

theorem find?_cons (n : String) (v : Value) (b : Bindings) (name : String) :
    find? ((n, v) :: b) name = if name = n then some v else find? b name := by
  rw [find?, List.lookup_cons]
  by_cases h : name = n
  · rw [if_pos h, beq_iff_eq.2 h]
  · rw [if_neg h, beq_eq_false_iff_ne.2 h, find?]

theorem find?_bind (b : Bindings) (name other : String) (value : Value) :
    find? (bind name value b) other = if other = name then some value else find? b other := by
  induction b with
  | nil => simp [bind, find?_cons]
  | cons entry rest ih =>
    obtain ⟨n, v⟩ := entry
    by_cases h : n = name
    · subst h
      by_cases ho : other = n <;> simp [bind, find?_cons, ho]
    · by_cases ho : other = n
      · subst ho
        simp [bind, find?_cons, h]
      · simp [bind, find?_cons, h, ho, ih]

end Bindings

/-- Nested scopes, the innermost first. -/
abbrev Chain := List Bindings

namespace Chain

/-- The number of scopes inside the innermost one that binds a name, if any binds it. -/
def owner? (c : Chain) (name : String) : Option Nat := c.findIdx? fun b => b.binds name

/-- The value of a name, read in the scope that owns it. -/
def find? (scopes : Chain) (name : String) : Option Value :=
  (scopes.owner? name).bind fun index => scopes[index]?.bind fun b => b.find? name

/-- Whether a name is bound in any of the scopes. -/
def binds (c : Chain) (name : String) : Bool := c.any fun b => b.binds name

/-- The chain with a name bound in its innermost scope. A chain without scopes gets its first. -/
def declare (name : String) (value : Value) : Chain → Chain
  | [] => [Bindings.bind name value []]
  | b :: outer => Bindings.bind name value b :: outer

/-- The chain with a name bound in the scope that has `index` scopes inside it. -/
def assign (index : Nat) (name : String) (value : Value) (c : Chain) : Chain :=
  c.modify index (Bindings.bind name value)

/-- The chain with a new scope inside all others. -/
def push (c : Chain) : Chain := [] :: c

/-- The chain without its innermost scope. -/
def pop (c : Chain) : Chain := c.tail

/-- The number of scopes around the innermost one. -/
def depth (c : Chain) : Nat := c.length - 1

/-- Whether a name is bound outside the innermost scope, so that binding it there hides it. -/
def shadows (c : Chain) (name : String) : Bool := c.pop.binds name

@[simp] theorem pop_push (c : Chain) : c.push.pop = c := rfl

@[simp] theorem find?_nil (name : String) : find? [] name = none := rfl

/-- A name means what the innermost scope says that binds it. -/
theorem find?_cons (b : Bindings) (c : Chain) (name : String) :
    find? (b :: c) name = (b.find? name).or (c.find? name) := by
  rw [find?, owner?, List.findIdx?_cons]
  cases hb : b.find? name with
  | some v => simp [Bindings.binds, hb]
  | none =>
    simp only [Bindings.binds, hb, Option.isSome_none, Bool.false_eq_true, if_false, Option.none_or]
    rw [find?, owner?, Option.bind_map]
    rfl

/-- The owner of a name binds it, so that a name with an owner has a value. -/
theorem owner?_eq_none_iff {c : Chain} {name : String} : c.owner? name = none ↔ c.find? name = none := by
  induction c with
  | nil => simp [owner?]
  | cons b c ih =>
    rw [find?_cons, Option.or_eq_none_iff, ← ih]
    simp only [owner?, List.findIdx?_cons]
    cases hb : b.find? name <;> simp [Bindings.binds, hb]

end Chain

end Curly
