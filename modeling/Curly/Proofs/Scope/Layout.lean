import Curly.Scope.Chain

/-!
# The layout of scopes

Which scope binds a name depends on the names of the scopes and not on their values.

## Main definitions

* `Chain.layout`: the names bound by each of some nested scopes.
* `Chain.declareAll`: scopes with several names bound in the innermost one.
-/

namespace Curly

namespace Bindings

variable {b b' : Bindings} {name : String}

theorem binds_eq_contains (b : Bindings) (name : String) :
    b.binds name = b.names.contains name := by
  induction b with
  | nil => rfl
  | cons entry b ih =>
    obtain ⟨n, v⟩ := entry
    rw [binds, find?_cons]
    by_cases h : name = n
    · subst h
      simp [names]
    · rw [if_neg h]
      rw [binds] at ih
      simp only [ih, names, List.map_cons, List.contains_cons, beq_eq_false_iff_ne.mpr h,
        Bool.false_or]

/-- Binding a name that is bound changes its value only. -/
theorem names_bind_of_binds (h : b.binds name = true) (v : Value) :
    (bind name v b).names = b.names := by
  induction b with
  | nil => cases h
  | cons entry b ih =>
    obtain ⟨n, w⟩ := entry
    by_cases hn : n = name
    · subst hn
      simp [bind, names]
    · have hb : binds b name = true := by
        rwa [binds, find?_cons, if_neg (Ne.symm hn)] at h
      simp only [bind, if_neg hn, names, List.map_cons]
      exact congrArg _ (ih hb)

end Bindings

namespace Chain

variable {c c' : Chain} {name : String}

/-- The names that each of the scopes binds. -/
def layout (c : Chain) : List (List String) := c.map Bindings.names

/-- The scopes with some names bound in the innermost one. -/
def declareAll (names : List String) (c : Chain) : Chain :=
  names.foldl (fun c name => c.declare name .null) c

theorem owner?_eq_findIdx? (c : Chain) (name : String) :
    c.owner? name = c.layout.findIdx? fun names => names.contains name := by
  rw [owner?, layout, List.findIdx?_map]
  congr 1
  funext b
  exact b.binds_eq_contains name

theorem owner?_congr (h : c.layout = c'.layout) : c.owner? name = c'.owner? name := by
  rw [owner?_eq_findIdx?, owner?_eq_findIdx?, h]

@[simp] theorem layout_push (c : Chain) : c.push.layout = [] :: c.layout := rfl

@[simp] theorem layout_pop (c : Chain) : c.pop.layout = c.layout.tail := List.map_tail

/-- An assignment to a name that is bound changes a value only. -/
theorem layout_assign {index : Nat} (h : c.owner? name = some index) (v : Value) :
    (c.assign index name v).layout = c.layout := by
  induction c generalizing index with
  | nil => cases h
  | cons b c ih =>
    rw [owner?, List.findIdx?_cons] at h
    split at h
    · next hb =>
      cases h
      simp only [assign, List.modify_zero_cons, layout, List.map_cons,
        Bindings.names_bind_of_binds hb v]
    · obtain ⟨i, hi, rfl⟩ := Option.map_eq_some_iff.1 h
      simp only [assign, List.modify_succ_cons, layout, List.map_cons]
      exact congrArg _ (ih hi)

end Chain

end Curly
