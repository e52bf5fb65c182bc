import Curly.Proofs.Run.Triple
import Curly.Proofs.Scope.Layout
import Curly.Proofs.Tree.Roles

/-!
# Evaluation keeps the layout of scopes

However the evaluation of an expression ends, every scope binds the names that it bound before. A
statement may bind further names in the innermost scope.

## Main statements

* `evaluationAt_keeps`: what expressions, blocks and statements keep.
-/

namespace Curly

open Run

namespace Run

/-- The step leaves all scopes with the names they have, however it ends. -/
def Keeps (L : List (List String)) {α : Type} (m : RunM α) : Prop :=
  Triple (fun r => r.scopes.layout = L) m (fun _ r => r.scopes.layout = L)
    (fun _ r => r.scopes.layout = L)

/-- The scopes around the innermost one have these names. -/
def Outer (L : List (List String)) (r : Run) : Prop := ∃ names, r.scopes.layout = names :: L

/-- The step leaves all scopes but the innermost one with the names they have, however it ends. -/
def KeepsOuter (L : List (List String)) {α : Type} (m : RunM α) : Prop :=
  Triple (Outer L) m (fun _ => Outer L) (fun _ => Outer L)

variable {L : List (List String)} {α β : Type}

theorem Keeps.bind {m : RunM α} {f : α → RunM β} (hm : Keeps L m) (hf : ∀ a, Keeps L (f a)) :
    Keeps L (m >>= f) := Triple.bind hm hf

theorem Keeps.pure (a : α) : Keeps L (Pure.pure a) := Triple.pure fun _ h => h

theorem Keeps.fail (cause : RuntimeCause) (span : Span) : Keeps L (Run.fail cause span : RunM α) :=
  Triple.fail fun _ h => h

theorem Keeps.throw (e : RunFault) : Keeps L (MonadExcept.throw e : RunM α) :=
  Triple.throw fun _ h => h

theorem Keeps.steady : Steady (fun r => r.scopes.layout = L) fun _ r => r.scopes.layout = L where
  setCurrent := fun _ _ h => h
  fail := fun _ _ _ _ h => h
  noArithmetic := fun _ _ h => h

theorem Keeps.note (n : Note) : Keeps L (Run.note n) := Triple.note fun _ h => h

theorem Keeps.setCurrent (t : Tree) : Keeps L (Run.setCurrent t) := Triple.setCurrent fun _ h => h

/-- What keeps every layout keeps what lies around the innermost scope. -/
theorem Keeps.outer {m : RunM α} (h : ∀ L, Keeps L m) : KeepsOuter L m := by
  rintro r ⟨names, hr⟩
  have := h _ r hr
  split at this
  · exact ⟨names, this⟩
  · exact ⟨names, this⟩

end Run

namespace Evaluation

variable {L : List (List String)} {limits : Limits} {below : Evaluation} {path : List Nat}

theorem each_keepsOuter {es : List Tree}
    (h : ∀ p, ∀ e ∈ es, KeepsOuter L (below p e)) (index : Nat) :
    KeepsOuter L (each below path index es) := by
  induction es generalizing index with
  | nil => exact Triple.pure fun _ h => h
  | cons e es ih =>
    refine Triple.bind (h _ e (List.mem_cons_self ..)) fun _ => ?_
    exact ih (fun p e he => h p e (List.mem_cons_of_mem _ he)) (index + 1)

theorem statements_keepsOuter {es : List Tree} {t : Option Tree}
    (hes : ∀ p, ∀ e ∈ es, KeepsOuter L (below p e))
    (ht : ∀ p e, t = some e → KeepsOuter L (below p e)) :
    KeepsOuter L (statements below path es t) := by
  refine Triple.bind (each_keepsOuter hes 0) fun _ => ?_
  cases t with
  | none => exact Triple.pure fun _ h => h
  | some e => exact ht _ e rfl

theorem block_keeps {es : List Tree} {t : Option Tree}
    (hes : ∀ p, ∀ e ∈ es, KeepsOuter L (below p e))
    (ht : ∀ p e, t = some e → KeepsOuter L (below p e)) :
    Keeps L (block below path es t) := by
  refine Triple.bind (Triple.read fun _ h => h) fun _ => Keeps.bind (.note _) fun _ => ?_
  refine Triple.inside (statements_keepsOuter hes ht) (fun r hr => ⟨[], ?_⟩) ?_ ?_
  · rw [Chain.layout_push, hr]
  · rintro _ r ⟨names, hr⟩
    rw [Chain.layout_pop, hr, List.tail_cons]
  · rintro _ r ⟨names, hr⟩
    rw [Chain.layout_pop, hr, List.tail_cons]

theorem reference_keeps (span : Span) (name : String) : Keeps L (reference path span name) := by
  refine Triple.bind (Q := fun _ r => r.scopes.layout = L) (Triple.scopesFor fun _ h => h)
    fun c => ?_
  split
  · exact Keeps.pure _
  · exact Keeps.fail _ _

/-- The owner of a name still binds it when the value is known. -/
theorem assignment_keeps {span : Span} {name : String} {e : Tree} (he : ∀ p, Keeps L (below p e)) :
    Keeps L (assignment below path span name e) := by
  refine Triple.bind (Q := fun c r => c.layout = L ∧ r.scopes.layout = L)
    (Triple.scopesFor fun _ h => ⟨h, h⟩) fun c => Triple.assume (fun _ h => h.1) fun hc => ?_
  refine Triple.strengthen ?_ fun _ h => h.2
  split
  · exact Keeps.fail _ _
  · next i hi =>
    refine Triple.bind (he _) fun v => ?_
    refine Triple.bind (Triple.update fun r hr => ?_) fun _ => Keeps.pure v
    exact (Chain.layout_assign ((Chain.owner?_congr (hr.trans hc.symm)).trans hi) v).trans hr

theorem declare_keepsOuter (name : String) (v : Value) : KeepsOuter L (declare name v) := by
  have bound : ∀ r, Outer L r → Outer L { r with scopes := r.scopes.declare name v } := by
    rintro r ⟨names, hr⟩
    cases hc : r.scopes with
    | nil =>
      rw [hc] at hr
      cases hr
    | cons b c =>
      rw [hc] at hr
      exact ⟨_, congrArg _ (List.cons.inj hr).2⟩
  have store : KeepsOuter L (do
      modify fun r => { r with scopes := r.scopes.declare name v }
      return Value.null) :=
    Triple.bind (Triple.update bound) fun _ => Triple.pure fun _ h => h
  refine Triple.bind (Q := fun _ => Outer L) (Triple.read fun _ h => h) fun c => ?_
  split
  · exact Triple.bind (Triple.note fun _ h => h) fun _ => store
  · exact store

end Evaluation

open Evaluation

/-- What the evaluation of a tree keeps. Of the scopes around it an expression keeps all, and a
statement all but the innermost. -/
theorem evaluationAt_keeps (limits : Limits) (n : Nat) {role : Tree.Role} {t : Tree}
    (h : Tree.Plays role t) (path : List Nat) (L : List (List String)) :
    (role ≠ .statement → Keeps L (evaluationAt limits n path t)) ∧
      KeepsOuter L (evaluationAt limits n path t) := by
  revert role L
  refine evaluationAt_induction (motive := fun _ t m => ∀ {role}, Tree.Plays role t →
    ∀ L, (role ≠ .statement → Keeps L m) ∧ KeepsOuter L m)
    (fun _ _ _ _ _ => ⟨fun _ => .throw _, Triple.throw fun _ h => h⟩) ?_ n path t
  intro below path t ih role h L
  have expr : ∀ {L e}, Tree.Plays .expression e → ∀ p, Keeps L (below p e) := fun he p =>
    (ih p _ he _).1 (by decide)
  -- Everything but a declaration keeps every layout, so it keeps what is around as well.
  have whole : ∀ {role}, Tree.Plays role t → role ≠ .statement → ∀ L,
      Keeps L (node limits below path t) := by
    intro role h hrole L
    refine (Keeps.note _).bind fun _ => (Keeps.setCurrent t).bind fun _ => ?_
    cases h with
    | literal => exact .pure _
    | reference => exact reference_keeps _ _
    | assignment he => exact assignment_keeps (expr he)
    | binary ha hb => exact Keeps.steady.binary (expr ha _) (expr hb _)
    | unary ha => exact (expr ha _).bind fun v => Keeps.steady.applyUnary _ _ v
    | call hf => exact (expr hf _).bind fun _ => .fail _ _
    | doBlock hb => exact (ih _ _ hb L).1 (by decide)
    | loop hb =>
      exact Triple.rounds (fun _ _ h => h) ((ih _ _ hb L).1 (by decide)) (fun _ _ _ _ h => h)
        (fun _ _ _ _ h => h) (fun _ _ h => h) _ _
    | block hes ht =>
      exact block_keeps (fun p e he => (ih p e (hes e he) L).2) fun p e he => (ih p e (ht e he) L).2
    | declaration => exact absurd rfl hrole
    | evaluation => exact absurd rfl hrole
  cases role with
  | statement =>
    refine ⟨fun h => absurd rfl h, ?_⟩
    cases h with
    | declaration he =>
      refine Triple.bind (Keeps.outer fun _ => .note _) fun _ =>
        Triple.bind (Keeps.outer fun _ => .setCurrent _) fun _ => ?_
      exact Triple.bind (ih _ _ he L).2 fun v => declare_keepsOuter _ v
    | evaluation he => exact Keeps.outer (whole he (by decide))
  | expression => exact ⟨fun hr => whole h hr L, Keeps.outer (whole h (by decide))⟩
  | block => exact ⟨fun hr => whole h hr L, Keeps.outer (whole h (by decide))⟩

end Curly
