import Curly.Proofs.UpTo
import Curly.Run.Evaluation

/-!
# Triples for runs

What is shown of a step of a run is a triple: what holds before it, what holds after it if it succeeds,
and what holds if it fails. A failed step leaves a state behind, so that its state counts as well.

## Main definitions

* `Run.Triple`: the triple of a step.
* `Run.Steady`: properties of states that operators keep, because their operands do.
-/

namespace Curly.Run

variable {α β : Type}

/-- From states with `P`, the step succeeds with `Q` or fails with `E`. -/
def Triple (P : Run → Prop) (m : RunM α) (Q : α → Run → Prop) (E : RunFault → Run → Prop) : Prop :=
  ∀ r, P r →
    match m r with
    | .ok a r' => Q a r'
    | .error e r' => E e r'

namespace Triple

variable {P P' : Run → Prop} {Q Q' : α → Run → Prop} {E E' : RunFault → Run → Prop}

theorem consequence {m : RunM α} (h : Triple P m Q E) (hP : ∀ r, P' r → P r)
    (hQ : ∀ a r, Q a r → Q' a r) (hE : ∀ e r, E e r → E' e r) : Triple P' m Q' E' := by
  intro r hr
  have := h r (hP r hr)
  split
  · next heq =>
    rw [heq] at this
    exact hQ _ _ this
  · next heq =>
    rw [heq] at this
    exact hE _ _ this

theorem of_ok {m : RunM α} (h : Triple P m Q E) {r r' : Run} {a : α} (hr : P r)
    (hm : m r = .ok a r') : Q a r' := by
  have := h r hr
  rwa [hm] at this

theorem of_error {m : RunM α} (h : Triple P m Q E) {r r' : Run} {e : RunFault} (hr : P r)
    (hm : m r = .error e r') : E e r' := by
  have := h r hr
  rwa [hm] at this

theorem weaken {m : RunM α} (h : Triple P m Q E) (hQ : ∀ a r, Q a r → Q' a r) : Triple P m Q' E :=
  h.consequence (fun _ h => h) hQ fun _ _ h => h

theorem strengthen {m : RunM α} (h : Triple P m Q E) (hP : ∀ r, P' r → P r) : Triple P' m Q E :=
  h.consequence hP (fun _ _ h => h) fun _ _ h => h

/-- **Conjunction rule**: what two triples say of a step holds together. -/
theorem and {m : RunM α} (h : Triple P m Q E) (h' : Triple P' m Q' E') :
    Triple (fun r => P r ∧ P' r) m (fun a r => Q a r ∧ Q' a r) fun e r => E e r ∧ E' e r := by
  intro r hr
  have h := h r hr.1
  have h' := h' r hr.2
  generalize m r = result at h h'
  cases result with
  | ok a r' => exact ⟨h, h'⟩
  | error e r' => exact ⟨h, h'⟩

/-- Nothing is asked of any step. -/
theorem any (m : RunM α) : Triple (fun _ => True) m (fun _ _ => True) fun _ _ => True := by
  intro r _
  split <;> trivial

theorem pure {a : α} (h : ∀ r, P r → Q a r) : Triple P (Pure.pure a) Q E := h

theorem throw {e : RunFault} (h : ∀ r, P r → E e r) :
    Triple P (MonadExcept.throw e : RunM α) Q E := h

theorem fail {cause : RuntimeCause} {span : Span} (h : ∀ r, P r → E (.error ⟨cause, span⟩) r) :
    Triple P (Run.fail cause span : RunM α) Q E := h

theorem update {f : Run → Run} {Q : PUnit → Run → Prop} (h : ∀ r, P r → Q ⟨⟩ (f r)) :
    Triple P (modify f) Q E := h

theorem read {Q : Run → Run → Prop} (h : ∀ r, P r → Q r r) : Triple P get Q E := h

theorem bind {m : RunM α} {f : α → RunM β} {R : β → Run → Prop} (hm : Triple P m Q E)
    (hf : ∀ a, Triple (Q a) (f a) R E) : Triple P (m >>= f) R E := by
  intro r hr
  have h := hm r hr
  rw [bind_run]
  split at h
  · next a r' heq =>
    rw [heq]
    exact hf a r' h
  · next e r' heq =>
    rw [heq]
    exact h

/-- A fact that holds in all states before a step may be used. -/
theorem assume {φ : Prop} {m : RunM α} (hφ : ∀ r, P r → φ) (h : φ → Triple P m Q E) :
    Triple P m Q E :=
  fun r hr => h (hφ r hr) r hr

theorem note {n : Note} {Q : PUnit → Run → Prop}
    (h : ∀ r, P r → Q ⟨⟩ { r with journal := r.journal.map (n :: ·) }) :
    Triple P (Run.note n) Q E := h

theorem setCurrent {t : Tree} {Q : PUnit → Run → Prop}
    (h : ∀ r, P r → Q ⟨⟩ { r with current := some t }) : Triple P (Run.setCurrent t) Q E := h

theorem scopesFor {path : List Nat} {name : String} {Q : Chain → Run → Prop}
    (h : ∀ r, P r → Q r.scopes
      { r with journal := r.journal.map (.lookUp path name (r.scopes.owner? name) :: ·) }) :
    Triple P (Run.scopesFor path name) Q E := h

/-- What holds inside a new scope holds of the scopes around it afterwards. -/
theorem inside {m : RunM α} (h : Triple P m Q E)
    (hpush : ∀ r, P' r → P { r with scopes := r.scopes.push })
    (hpop : ∀ a r, Q a r → Q' a { r with scopes := r.scopes.pop })
    (herror : ∀ e r, E e r → E' e { r with scopes := r.scopes.pop }) :
    Triple P' (Run.inside m) Q' E' := by
  intro r hr
  have := h _ (hpush r hr)
  unfold Run.inside
  cases heq : m { r with scopes := r.scopes.push } with
  | ok a r' =>
    rw [heq] at this
    exact hpop a r' this
  | error e r' =>
    rw [heq] at this
    exact herror e r' this

/-- Nesting that is too deep becomes an error of the language, and is none of the faults any more. -/
theorem boundedAt {m : RunM α} {span : Span} (h : Triple P m Q E)
    (hdeep : ∀ r, E .tooDeep r → E' (.error ⟨.nestedTooDeeply, span⟩) r)
    (hother : ∀ e r, e ≠ .tooDeep → E e r → E' e r) : Triple P (Run.boundedAt span m) Q E' := by
  intro r hr
  have := h r hr
  unfold Run.boundedAt
  split at this
  · next heq =>
    rw [heq]
    exact this
  · next e r' heq =>
    rw [heq]
    cases e with
    | tooDeep => exact hdeep r' this
    | _ => exact hother _ r' nofun this

/-- **Loop rule**: what every round keeps holds when the rounds are spent. -/
theorem rounds {limits : Limits} {span : Span} {body : RunM Value} {I : Run → Prop}
    {Q : Value → Run → Prop}
    (hnote : ∀ n r, I r → I { r with journal := r.journal.map (.round n :: ·) })
    (hbody : Triple I body (fun _ => I) E)
    (hlimit : ∀ limit r, limits.loop = some limit → Numeral.isWritable limit = true → I r →
      E (.error ⟨.loopLimit limit, span⟩) r)
    (hunwritable : ∀ limit r, limits.loop = some limit → Numeral.isWritable limit = false → I r →
      E (.unwritable limit) r)
    (hunfinished : ∀ r, limits.loop = none → I r → E .unfinished r) (left done : Nat) :
    Triple I (Evaluation.rounds limits span body left done) Q E := by
  induction left generalizing done with
  | zero =>
    unfold Evaluation.rounds Evaluation.roundsSpent
    split
    · next limit hloop =>
      split
      · next hwritable => exact fail fun r => hlimit limit r hloop hwritable
      · next hwritable =>
        exact throw fun r => hunwritable limit r hloop (Bool.eq_false_iff.2 hwritable)
    · next hloop => exact throw fun r => hunfinished r hloop
  | succ left ih => exact bind (note (hnote _)) fun _ => bind hbody fun _ => ih _

end Triple

/-- The property `I` of states says nothing of the current node, and what `E` says of the faults of
operators follows from it. -/
structure Steady (I : Run → Prop) (E : RunFault → Run → Prop) : Prop where
  setCurrent : ∀ t r, I r → I { r with current := some t }
  fail : ∀ cause span r, (∀ name, cause ≠ .undefinedVariable name) → I r → E (.error ⟨cause, span⟩) r
  noArithmetic : ∀ op r, I r → E (.noArithmetic op) r

namespace Steady

variable {I : Run → Prop} {E : RunFault → Run → Prop} {below : Evaluation} {path : List Nat}

theorem applyToNumbers (h : Steady I E) (t : Tree) (op : BinaryOperator) (x y : Float) :
    Triple I (Evaluation.applyToNumbers t op x y) (fun _ => I) E := by
  unfold Evaluation.applyToNumbers
  split
  · exact Triple.fail fun r => h.fail _ _ r nofun
  · split
    · exact Triple.pure fun _ hr => hr
    · refine Triple.bind (Q := fun _ => I) (Triple.setCurrent (h.setCurrent t)) fun _ => ?_
      split
      · exact Triple.pure fun _ hr => hr
      · exact Triple.throw (h.noArithmetic op)

theorem applyBinary (h : Steady I E) (t : Tree) (op : BinaryOperator) (a b : Value) :
    Triple I (Evaluation.applyBinary t op a b) (fun _ => I) E := by
  unfold Evaluation.applyBinary
  split
  · exact Triple.pure fun _ hr => hr
  · exact Triple.pure fun _ hr => hr
  · split
    · exact h.applyToNumbers t op _ _
    · exact Triple.fail fun r => h.fail _ _ r nofun

/-- An operator between two operands keeps what both of them keep. -/
theorem binary (h : Steady I E) {t a b : Tree} {op : BinaryOperator}
    (ha : Triple I (below (0 :: path) a) (fun _ => I) E)
    (hb : Triple I (below (1 :: path) b) (fun _ => I) E) :
    Triple I (Evaluation.binary below path t op a b) (fun _ => I) E := by
  refine Triple.bind ha fun v => ?_
  split
  · split
    · exact Triple.bind hb fun _ => Triple.pure fun _ hr => hr
    · exact Triple.pure fun _ hr => hr
  · split
    · exact Triple.pure fun _ hr => hr
    · exact Triple.bind hb fun _ => Triple.pure fun _ hr => hr
  · exact Triple.bind hb fun w => h.applyBinary t op v w

theorem applyUnary (h : Steady I E) (span : Span) (op : UnaryOperator) (v : Value) :
    Triple I (Evaluation.applyUnary span op v) (fun _ => I) E := by
  unfold Evaluation.applyUnary
  split
  · exact Triple.pure fun _ hr => hr
  · split
    · exact Triple.pure fun _ hr => hr
    · exact Triple.fail fun r => h.fail _ _ r nofun

end Steady

end Curly.Run
