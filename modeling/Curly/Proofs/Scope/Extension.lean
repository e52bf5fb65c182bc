import Mathlib.Data.List.Forall2
import Curly.Proofs.Scope.Layout

/-!
# Scopes that grow

What declarations and assignments can make of nested scopes: the innermost scope may bind further names,
behind the ones that it binds already, the scopes around it bind what they bound, and values change for
some names only.

## Main definitions

* `Bindings.Extends`: what a scope may become.
* `Chain.Extends`: what nested scopes may become.
-/

namespace Curly

namespace Bindings

variable {D D' T T' : String → Prop} {b b' b'' : Bindings} {name : String}

/-- The scope `b'` binds the names of `b` in their order, and behind them names in `D` that `b` does not
bind. Only names in `T` may have another value. -/
structure Extends (D T : String → Prop) (b b' : Bindings) : Prop where
  names : ∃ new, b'.names = b.names ++ new ∧ ∀ n ∈ new, D n ∧ n ∉ b.names
  nodup : b.names.Nodup → b'.names.Nodup
  values : ∀ n, ¬ T n → b'.find? n = b.find? n

theorem names_bind_of_not_binds (h : b.binds name = false) (v : Value) :
    (bind name v b).names = b.names ++ [name] := by
  induction b with
  | nil => rfl
  | cons entry b ih =>
    obtain ⟨n, w⟩ := entry
    rw [binds, find?_cons] at h
    by_cases hn : name = n
    · rw [if_pos hn] at h
      cases h
    · rw [if_neg hn] at h
      rw [bind, if_neg (Ne.symm hn), names, List.map_cons, names, List.map_cons, List.cons_append]
      exact congrArg _ (ih h)

theorem binds_iff_mem : b.binds name = true ↔ name ∈ b.names := by
  rw [binds_eq_contains, List.contains_iff_mem]

namespace Extends

theorem refl (D T : String → Prop) (b : Bindings) : Extends D T b b where
  names := ⟨[], (List.append_nil _).symm, nofun⟩
  nodup := id
  values := fun _ _ => rfl

theorem trans (h : Extends D T b b') (h' : Extends D T b' b'') : Extends D T b b'' where
  names := by
    obtain ⟨new, hnew, hin⟩ := h.names
    obtain ⟨new', hnew', hin'⟩ := h'.names
    refine ⟨new ++ new', by rw [hnew', hnew, List.append_assoc], fun n hn => ?_⟩
    rcases List.mem_append.1 hn with hn | hn
    · exact hin n hn
    · refine ⟨(hin' n hn).1, fun hold => (hin' n hn).2 ?_⟩
      rw [hnew]
      exact List.mem_append_left _ hold
  nodup := h'.nodup ∘ h.nodup
  values := fun n hn => (h'.values n hn).trans (h.values n hn)

theorem mono (h : Extends D T b b') (hD : ∀ n, D n → D' n) (hT : ∀ n, T n → T' n) :
    Extends D' T' b b' where
  names := by
    obtain ⟨new, hnew, hin⟩ := h.names
    exact ⟨new, hnew, fun n hn => ⟨hD n (hin n hn).1, (hin n hn).2⟩⟩
  nodup := h.nodup
  values := fun n hn => h.values n fun hn' => hn (hT n hn')

/-- What is bound stays bound. -/
theorem binds (h : Extends D T b b') (hb : b.binds name = true) : b'.binds name = true := by
  obtain ⟨new, hnew, -⟩ := h.names
  rw [binds_iff_mem, hnew]
  exact List.mem_append_left _ (binds_iff_mem.1 hb)

theorem values_bind (hT : T name) (b : Bindings) (v : Value) (n : String) (hn : ¬ T n) :
    (bind name v b).find? n = b.find? n := by
  rw [find?_bind, if_neg]
  rintro rfl
  exact hn hT

/-- A new value for a name that is bound. -/
theorem rebind (hT : T name) (hb : b.binds name = true) (v : Value) :
    Extends D T b (bind name v b) where
  names := ⟨[], by rw [names_bind_of_binds hb, List.append_nil], nofun⟩
  nodup := by
    rw [names_bind_of_binds hb]
    exact id
  values := values_bind hT b v

/-- A value for any name. -/
theorem bind (hD : D name) (hT : T name) (b : Bindings) (v : Value) :
    Extends D T b (bind name v b) := by
  by_cases hb : b.binds name = true
  · exact rebind hT hb v
  · have hfresh : name ∉ b.names := fun h => hb (binds_iff_mem.2 h)
    have hnames := names_bind_of_not_binds (Bool.eq_false_iff.2 hb) v
    refine ⟨⟨[name], hnames, fun n hn => ?_⟩, fun h => ?_, values_bind hT b v⟩
    · rw [List.mem_singleton.1 hn]
      exact ⟨hD, hfresh⟩
    · rw [hnames]
      exact List.nodup_append.2 ⟨h, List.pairwise_singleton _ _, fun n hn m hm heq =>
        hfresh (by rwa [← List.mem_singleton.1 hm, ← heq])⟩

/-- A scope in which nothing was declared binds what it bound. -/
theorem names_eq (h : Extends (fun _ => False) T b b') : b'.names = b.names := by
  obtain ⟨new, hnew, hin⟩ := h.names
  have hnil : new = [] := List.eq_nil_iff_forall_not_mem.2 fun n hn => (hin n hn).1
  rw [hnew, hnil, List.append_nil]

end Extends

end Bindings

namespace Chain

variable {D D' T T' : String → Prop} {c c' c'' : Chain} {name : String} {index : Nat}

/-- The scopes around the innermost one bind the names that they bound, in their order. The innermost one
may bind names in `D` behind those that it bound. Only names in `T` may have another value in any of
them. -/
inductive Extends (D T : String → Prop) : Chain → Chain → Prop where
  | intro {b b' : Bindings} {outer outer' : Chain} (inner : b.Extends D T b')
      (around : List.Forall₂ (Bindings.Extends (fun _ => False) T) outer outer') :
      Extends D T (b :: outer) (b' :: outer')

/-- What stands at the first place with a property has the property. -/
theorem exists_of_findIdx? {α : Type} {p : α → Bool} {l : List α} {i : Nat}
    (h : l.findIdx? p = some i) : ∃ a, l[i]? = some a ∧ p a = true := by
  obtain ⟨hi, hp, -⟩ := List.findIdx?_eq_some_iff_getElem.1 h
  exact ⟨l[i], List.getElem?_eq_getElem hi, hp⟩

theorem forall₂_modify {α : Type} {R : α → α → Prop} {l l' : List α} (h : List.Forall₂ R l l')
    (i : Nat) (f : α → α) (hf : ∀ a a', l[i]? = some a → R a a' → R a (f a')) :
    List.Forall₂ R l (l'.modify i f) := by
  induction h generalizing i with
  | nil => simp
  | @cons a a' l l' hr hrest ih =>
    cases i with
    | zero => exact .cons (hf a a' rfl hr) hrest
    | succ i => exact .cons hr (ih i fun a a' ha => hf a a' ha)

namespace Extends

theorem around_refl (D T : String → Prop) (c : Chain) : List.Forall₂ (Bindings.Extends D T) c c :=
  List.forall₂_same.2 fun b _ => .refl D T b

theorem around_trans (h : List.Forall₂ (Bindings.Extends D T) c c')
    (h' : List.Forall₂ (Bindings.Extends D T) c' c'') :
    List.Forall₂ (Bindings.Extends D T) c c'' := by
  induction h generalizing c'' with
  | nil => exact h'
  | cons hb _ ih =>
    cases h' with
    | cons hb' hrest => exact .cons (hb.trans hb') (ih hrest)

theorem refl (D T : String → Prop) (b : Bindings) (outer : Chain) :
    Extends D T (b :: outer) (b :: outer) := .intro (.refl D T b) (around_refl _ T outer)

theorem trans (h : Extends D T c c') (h' : Extends D T c' c'') : Extends D T c c'' := by
  obtain ⟨hinner, haround⟩ := h
  obtain ⟨hinner', haround'⟩ := h'
  exact .intro (hinner.trans hinner') (around_trans haround haround')

theorem mono (h : Extends D T c c') (hD : ∀ n, D n → D' n) (hT : ∀ n, T n → T' n) :
    Extends D' T' c c' := by
  obtain ⟨hinner, haround⟩ := h
  exact .intro (hinner.mono hD hT) (haround.imp fun _ _ h => h.mono (fun _ h => h) hT)

/-- A declaration takes place in the innermost scope. -/
theorem declare (hD : D name) (hT : T name) (h : Extends D T c c') (v : Value) :
    Extends D T c (c'.declare name v) := by
  obtain ⟨hinner, haround⟩ := h
  exact .intro (hinner.trans (.bind hD hT _ v)) haround

/-- An assignment to the scope that bound the name to begin with. -/
theorem assign (hT : T name) (hi : c.owner? name = some index) (h : Extends D T c c') (v : Value) :
    Extends D T c (c'.assign index name v) := by
  obtain ⟨b₀, hb₀, hbinds⟩ := exists_of_findIdx? hi
  have step : ∀ {D : String → Prop} {b b' : Bindings}, b = b₀ → b.Extends D T b' →
      b.Extends D T (Bindings.bind name v b') := by
    rintro D b b' rfl h
    exact h.trans (.rebind hT (h.binds hbinds) v)
  obtain ⟨hinner, haround⟩ := h
  cases index with
  | zero => exact .intro (step (Option.some.inj hb₀) hinner) haround
  | succ i =>
    refine .intro hinner (forall₂_modify haround i _ fun b b' hb h => step ?_ h)
    exact Option.some.inj (hb.symm.trans hb₀)

/-- When a scope ends, the ones around it have kept their names. -/
theorem pop (h : Extends D T c.push c') (hc : c ≠ []) : Extends D' T c c'.pop := by
  obtain ⟨-, haround⟩ := h
  cases haround with
  | nil => exact absurd rfl hc
  | cons hb hrest => exact .intro (hb.mono (fun _ h => h.elim) fun _ h => h) hrest

theorem ne_nil (h : Extends D T c c') : c' ≠ [] := by
  cases h
  exact List.cons_ne_nil _ _

theorem around_layout {outer outer' : Chain}
    (h : List.Forall₂ (Bindings.Extends (fun _ => False) T) outer outer') :
    outer'.layout = outer.layout := by
  induction h with
  | nil => rfl
  | cons hb _ ih => exact congrArg₂ List.cons hb.names_eq ih

theorem around_values {outer outer' : Chain} (h : List.Forall₂ (Bindings.Extends D T) outer outer')
    {n : String} (hn : ¬ T n) : outer'.map (·.find? n) = outer.map (·.find? n) := by
  induction h with
  | nil => rfl
  | cons hb _ ih => exact congrArg₂ List.cons (hb.values n hn) ih

/-- The scopes that have become of some scopes, name by name and value by value. -/
theorem exists_layout {b : Bindings} {outer : Chain} (h : Extends D T (b :: outer) c') :
    ∃ (b' : Bindings) (outer' : Chain) (new : List String),
      c' = b' :: outer' ∧ outer'.layout = outer.layout ∧
      b'.names = b.names ++ new ∧ (b.names.Nodup → b'.names.Nodup) ∧ (∀ n ∈ new, D n) ∧
      ∀ n, ¬ T n → (b' :: outer').map (·.find? n) = (b :: outer).map (·.find? n) := by
  cases h with
  | intro hinner haround =>
    obtain ⟨new, hnew, hin⟩ := hinner.names
    exact ⟨_, _, new, rfl, around_layout haround, hnew, hinner.nodup, fun n hn => (hin n hn).1,
      fun n hn => congrArg₂ List.cons (hinner.values n hn) (around_values haround hn)⟩

end Extends

end Chain

end Curly
