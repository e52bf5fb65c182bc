import Curly.Proofs.UpTo
import Curly.Run.Evaluation

/-!
# The bounds of evaluation

Evaluation under smaller bounds does what evaluation under greater ones does, unless it runs into one of
them. The calls that may be open are such a bound, and so are the rounds of loops.

## Main definitions

* `RunFault.CutShort`: the faults of a loop that ran for as long as it may.

## Main statements

* `evaluationAt_upTo`: evaluation with room for fewer calls agrees with that with room for more.
* `evaluationAt_upTo_limits`: evaluation under two limits agrees if loops under them do.
-/

namespace Curly

open Run

/-- The faults of a loop that ran for as many rounds as it may. -/
def RunFault.CutShort (e : RunFault) : Prop :=
  e = .unfinished ∨ (∃ limit, e = .unwritable limit) ∨
    ∃ limit span, e = .error ⟨.loopLimit limit, span⟩

variable {E : RunFault → Prop}

/-- A step in a new scope agrees with another if they agree there. -/
theorem UpTo.inside {α : Type} {m m' : RunM α} (h : UpTo E m m') :
    UpTo E (Run.inside m) (Run.inside m') := by
  intro r
  unfold Run.inside
  rcases h { r with scopes := r.scopes.push } with ⟨e, r', he, hr⟩ | hr
  · rw [hr]
    exact .inl ⟨e, _, he, rfl⟩
  · rw [hr]
    exact .inr rfl

theorem UpTo.boundedAt {α : Type} {m m' : RunM α} {span : Span} (h : UpTo E m m')
    (hdeep : E .tooDeep → E (.error ⟨.nestedTooDeeply, span⟩)) :
    UpTo E (Run.boundedAt span m) (Run.boundedAt span m') := by
  intro r
  unfold Run.boundedAt
  rcases h r with ⟨e, r', he, hr⟩ | hr
  · rw [hr]
    cases e with
    | tooDeep => exact .inl ⟨_, r', hdeep he, rfl⟩
    | _ => exact .inl ⟨_, r', he, rfl⟩
  · rw [hr]
    exact .inr rfl

namespace Evaluation

variable {below below' : Evaluation}

theorem each_upTo (h : ∀ p t, UpTo E (below p t) (below' p t)) (path : List Nat) (index : Nat)
    (es : List Tree) : UpTo E (each below path index es) (each below' path index es) := by
  induction es generalizing index with
  | nil => exact .refl _
  | cons e es ih => exact (h _ _).bind fun _ => ih _

theorem statements_upTo (h : ∀ p t, UpTo E (below p t) (below' p t)) (path : List Nat)
    (es : List Tree) (tail : Option Tree) :
    UpTo E (statements below path es tail) (statements below' path es tail) := by
  refine (each_upTo h path 0 es).bind fun _ => ?_
  cases tail with
  | none => exact .refl _
  | some t => exact h _ t

/-- A loop of fewer rounds does what a loop of more rounds does, unless its rounds are spent. -/
theorem rounds_upTo {limits limits' : Limits} {span : Span} {body body' : RunM Value}
    (h : UpTo E body body') {left left' : Nat} (hleft : left ≤ left')
    (hspent : ∀ more done, left + more = left' →
      UpTo E (roundsSpent limits span) (rounds limits' span body' more done)) (done : Nat) :
    UpTo E (rounds limits span body left done) (rounds limits' span body' left' done) := by
  induction left generalizing left' done with
  | zero => exact hspent left' done (Nat.zero_add _)
  | succ left ih =>
    obtain ⟨left', rfl⟩ : ∃ k, left' = k + 1 := ⟨left' - 1, by omega⟩
    refine .after _ fun _ => h.bind fun _ => ih (by omega) ?_ _
    intro more done hmore
    exact hspent more done (by omega)

/-- A loop of as many rounds does the same. -/
theorem rounds_upTo_same {limits : Limits} {span : Span} {body body' : RunM Value}
    (h : UpTo E body body') (left done : Nat) :
    UpTo E (rounds limits span body left done) (rounds limits span body' left done) := by
  refine rounds_upTo h (Nat.le_refl left) (fun more done hmore => ?_) done
  obtain rfl : more = 0 := by omega
  exact .refl _

theorem binary_upTo (h : ∀ p t, UpTo E (below p t) (below' p t)) (path : List Nat)
    (t : Tree) (op : BinaryOperator) (a b : Tree) :
    UpTo E (binary below path t op a b) (binary below' path t op a b) := by
  refine (h _ a).bind fun v => ?_
  split
  · split
    · exact .before (h _ b) _
    · exact .refl _
  · split
    · exact .refl _
    · exact .before (h _ b) _
  · exact .before (h _ b) _

theorem assignment_upTo (h : ∀ p t, UpTo E (below p t) (below' p t)) (path : List Nat)
    (span : Span) (name : String) (value : Tree) :
    UpTo E (assignment below path span name value) (assignment below' path span name value) := by
  refine .after _ fun c => ?_
  split
  · exact .refl _
  · exact .before (h _ value) _

theorem node_upTo {limits limits' : Limits} (h : ∀ p t, UpTo E (below p t) (below' p t))
    (hloop : ∀ span {body body'}, UpTo E body body' →
      UpTo E (rounds limits span body (roundsAllowed limits) 0)
        (rounds limits' span body' (roundsAllowed limits') 0))
    (path : List Nat) (t : Tree) :
    UpTo E (node limits below path t) (node limits' below' path t) := by
  refine .after _ fun _ => .after _ fun _ => ?_
  cases t with
  | declaration => exact .before (h _ _) _
  | assignment => exact assignment_upTo h path _ _ _
  | binary => exact binary_upTo h path _ _ _ _
  | unary => exact .before (h _ _) _
  | call => exact .before (h _ _) _
  | block => exact .after _ fun _ => .after _ fun _ => (statements_upTo h path _ _).inside
  | doBlock => exact h _ _
  | loop => exact hloop _ (h _ _)
  | _ => exact .refl _

end Evaluation

open Evaluation

/-- Evaluation with less room does what evaluation with more does, or runs out of it. -/
theorem evaluationAt_upTo (limits : Limits) {n m : Nat} (h : n ≤ m) (path : List Nat) (t : Tree) :
    UpTo (· = .tooDeep) (evaluationAt limits n path t) (evaluationAt limits m path t) := by
  induction n using Nat.strongRecOn generalizing m path t with
  | ind n ih =>
    cases n with
    | zero => exact .fault rfl
    | succ n =>
      obtain ⟨m, rfl⟩ : ∃ k, m = k + 1 := ⟨m - 1, by omega⟩
      rw [evaluationAt_succ, evaluationAt_succ]
      exact node_upTo (fun p u => ih _ (t.sub_calls_lt n) (Nat.sub_le_sub_right h _) p u)
        (fun span _ _ hbody => rounds_upTo_same hbody _ _) path t

/-- Evaluation under one limit does what evaluation under another one does, if loops do. -/
theorem evaluationAt_upTo_limits {limits limits' : Limits}
    (hloop : ∀ span {body body'}, UpTo E body body' →
      UpTo E (rounds limits span body (roundsAllowed limits) 0)
        (rounds limits' span body' (roundsAllowed limits') 0))
    (n : Nat) (path : List Nat) (t : Tree) :
    UpTo E (evaluationAt limits n path t) (evaluationAt limits' n path t) := by
  induction n using Nat.strongRecOn generalizing path t with
  | ind n ih =>
    cases n with
    | zero => exact .refl _
    | succ n =>
      rw [evaluationAt_succ, evaluationAt_succ]
      exact node_upTo (ih _ (t.sub_calls_lt n)) hloop path t

end Curly
