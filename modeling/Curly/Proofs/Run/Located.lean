import Curly.Proofs.Run.Invariant
import Curly.Proofs.Tree.Roles

/-!
# Where errors come from

Every error of a run is one that a node of the tree raises. The exception is nesting that is too deep, for
which the whole tree is blamed.

## Main definitions

* `RunFault.Within`: a fault that a node of a tree raises.

## Main statements

* `Tree.evaluationAt_located`: the faults of a node come from the nodes of its tree.
* `Tree.run_located`: the faults of a run.
-/

namespace Curly

open Run Evaluation

/-- A node of the tree raises the error by itself, or it is a loop that is cut short. -/
def RunFault.Within (T : Tree) : RunFault → Prop
  | .error ⟨cause, span⟩ => ∃ path N, T.at? path = some N ∧
      (N.Raises cause span ∨ ∃ limit body, N = .loop span body ∧ cause = .loopLimit limit)
  | _ => True

/-- The error of the language that a run failed with. -/
def Run.error? {α : Type} : EStateM.Result RunFault Run α → Option RuntimeError
  | .error (.error e) _ => some e
  | _ => none

theorem Run.exists_of_error? {α : Type} {result : EStateM.Result RunFault Run α} {e : RuntimeError}
    (h : error? result = some e) : ∃ r, result = .error (.error e) r := by
  unfold error? at h
  split at h
  · next r =>
    cases h
    exact ⟨r, rfl⟩
  · cases h

namespace Tree

variable {T u : Tree} {limits : Limits} {path : List Nat}

theorem within_invariant (T : Tree) :
    Invariant (fun _ => True) (fun _ => True) fun e _ => e.Within T :=
  .ofJournal (fun _ _ _ _ => trivial) (fun _ _ => trivial) fun _ _ h => h

/-- The faults of a node come from the nodes of its tree. -/
theorem evaluationAt_located (calls : Nat) (hu : T.at? path = some u) :
    Triple (fun _ => True) (evaluationAt limits calls path u)
      (Kept (fun _ => True) fun _ => True) fun e _ => e.Within T := by
  have h := within_invariant T
  revert hu
  refine evaluationAt_induction (motive := fun path u m => T.at? path = some u →
    Triple (fun _ => True) m (Kept (fun _ => True) fun _ => True) fun e _ => e.Within T)
    (fun _ _ _ => Triple.throw fun _ _ => trivial) (fun below path u ih hu => ?_) calls path u
  refine node_kept h (fun _ hr => hr) (fun _ _ _ => trivial)
    (fun cause span hraises _ _ => ⟨path, u, hu, .inl hraises⟩) (fun s body ht hbody => ?_)
    fun i v hv => ih _ v ((at?_cons hu i).trans hv)
  exact rounds_kept h (fun limit _ _ _ _ => ⟨path, u, hu, .inr ⟨limit, body, ht, rfl⟩⟩)
    (fun _ _ _ _ _ => trivial) (fun _ _ _ => trivial) hbody _ _

/-- **Errors are located**: a run fails with an error that a node of the tree raises, unless the tree is
nested too deeply. -/
theorem run_located (T : Tree) (limits : Limits) :
    Triple (fun _ => True) (T.run limits) (fun _ _ => True)
      fun e _ => e.Within T ∨ e = .error ⟨.nestedTooDeeply, T.span⟩ := by
  refine Triple.boundedAt (E := fun e _ => e.Within T) ?_ (fun _ _ => .inr rfl) fun _ _ _ h => .inl h
  cases T with
  | block s es tail =>
    refine (statements_kept (s := s) (within_invariant _) fun i u hu => ?_).weaken
      fun _ _ _ => trivial
    exact evaluationAt_located _ ((at?_cons (at?_nil _) i).trans hu)
  | _ => exact Triple.throw fun _ _ => trivial

end Tree

end Curly
