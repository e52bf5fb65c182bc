import Curly.Scope.Chain

/-!
# The values of names

How declarations and assignments change what names mean.
-/

namespace Curly.Chain

variable {c : Chain} {name : String} {index : Nat}

theorem find?_declare (c : Chain) (name other : String) (v : Value) :
    (c.declare name v).find? other = if other = name then some v else c.find? other := by
  cases c with
  | nil => rw [declare, find?_cons, Bindings.find?_bind]; split <;> rfl
  | cons b c =>
    rw [declare, find?_cons, find?_cons, Bindings.find?_bind]
    split <;> rfl

/-- An assignment to the owner of a name changes what the name means and nothing else. -/
theorem find?_assign (h : c.owner? name = some index) (other : String) (v : Value) :
    (c.assign index name v).find? other = if other = name then some v else c.find? other := by
  induction c generalizing index with
  | nil => cases h
  | cons b c ih =>
    rw [owner?, List.findIdx?_cons] at h
    -- Either the innermost scope binds the name, or the owner lies further out.
    split at h
    · cases h
      rw [assign, List.modify_zero_cons, find?_cons, find?_cons, Bindings.find?_bind]
      split <;> rfl
    · next hb =>
      obtain ⟨i, hi, rfl⟩ := Option.map_eq_some_iff.1 h
      rw [assign, List.modify_succ_cons, find?_cons, find?_cons]
      refine (congrArg _ (ih hi)).trans ?_
      by_cases ho : other = name
      · subst ho
        have hnone : b.find? other = none := by
          simpa [Bindings.binds] using hb
        rw [if_pos rfl, if_pos rfl, hnone, Option.none_or]
      · rw [if_neg ho, if_neg ho]

end Curly.Chain
