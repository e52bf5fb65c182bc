/-!
# Steps that agree up to faults

A step agrees with another up to some faults if it fails with one of them wherever the two differ. A
bound that runs out makes such a fault, so that everything that does not run out of it is the same under
every greater bound.

## Main definitions

* `UpTo`: a step agrees with another up to some faults.
-/

namespace Curly

variable {ε σ α β : Type} {E : ε → Prop}

theorem bind_run (m : EStateM ε σ α) (f : α → EStateM ε σ β) (s : σ) :
    (m >>= f) s =
      match m s with
      | .ok a s' => f a s'
      | .error e s' => .error e s' := by
  rfl

/-- The step `m` does what `m'` does, or fails with one of the faults `E`. -/
def UpTo (E : ε → Prop) (m m' : EStateM ε σ α) : Prop :=
  ∀ s, (∃ e s', E e ∧ m s = .error e s') ∨ m s = m' s

namespace UpTo

theorem refl (m : EStateM ε σ α) : UpTo E m m := fun _ => .inr rfl

theorem fault {m : EStateM ε σ α} {e : ε} (he : E e) : UpTo E (throw e) m :=
  fun s => .inl ⟨e, s, he, rfl⟩

theorem bind {m m' : EStateM ε σ α} {f f' : α → EStateM ε σ β} (h : UpTo E m m')
    (hf : ∀ a, UpTo E (f a) (f' a)) : UpTo E (m >>= f) (m' >>= f') := by
  intro s
  rw [bind_run, bind_run]
  rcases h s with ⟨e, s', he, hs⟩ | hs
  · rw [hs]
    exact .inl ⟨e, s', he, rfl⟩
  · rw [hs]
    split
    · exact hf _ _
    · exact .inr rfl

/-- What comes after the same step. -/
theorem after {f f' : α → EStateM ε σ β} (m : EStateM ε σ α) (hf : ∀ a, UpTo E (f a) (f' a)) :
    UpTo E (m >>= f) (m >>= f') :=
  (refl m).bind hf

/-- What comes before the same steps. -/
theorem before {m m' : EStateM ε σ α} (h : UpTo E m m') (f : α → EStateM ε σ β) :
    UpTo E (m >>= f) (m' >>= f) :=
  h.bind fun a => refl (f a)

/-- A step that does not run out of the smaller bound does the same under the greater one. -/
theorem eq_of_not {m m' : EStateM ε σ α} (h : UpTo E m m') {s : σ}
    (hm : ∀ e s', m s = .error e s' → ¬E e) : m s = m' s := by
  rcases h s with ⟨e, s', he, hs⟩ | hs
  · exact absurd he (hm e s' hs)
  · exact hs

/-- A step that succeeds under the greater bound does so under the smaller one, unless this runs out. -/
theorem ok_or {m m' : EStateM ε σ α} (h : UpTo E m m') {s s' : σ} {a : α} (hm : m' s = .ok a s') :
    (∃ e s'', E e ∧ m s = .error e s'') ∨ m s = .ok a s' :=
  (h s).imp_right fun hs => hs.trans hm

end UpTo

end Curly
