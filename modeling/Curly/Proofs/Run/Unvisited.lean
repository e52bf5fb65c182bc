import Curly.Proofs.Run.Limits
import Curly.Proofs.Run.Parallel
import Curly.Proofs.Tree.Replace

/-!
# Nodes that are never begun

What stands in the place of a node that a run never begins makes no difference to the run.

## Main definitions

* `Run.Abreast`: states with the same scopes and the same journal.
* `Run.Follows`: a step does what another one does, unless this one begins the node at a certain path.
* `Run.SameCourse`: runs with the same end, the same scopes and the same journal.

## Main statements

* `evaluationAt_not_began`: evaluation begins only nodes at and below its own.
* `evaluationAt_follows`: trees that differ at one path are evaluated alike until the node there is begun.
-/

namespace Curly

open Run Evaluation

namespace Run

variable {α β : Type} {path hole : List Nat} {r r' : Run} {n : Note}

/-- The state that a run leaves, however it ends. -/
def stateLeft : EStateM.Result RunFault Run α → Run
  | .ok _ r => r
  | .error _ r => r

/-- Runs that come to the same end in the same scopes, by way of the same nodes. -/
structure SameCourse (x x' : EStateM.Result RunFault Run α) : Prop where
  outcome : outcome x = outcome x'
  scopes : scopesLeft x = scopesLeft x'
  journal : (stateLeft x).journal = (stateLeft x').journal

theorem Triple.left {P I : Run → Prop} {m : RunM α} (h : Triple P m (fun _ => I) fun _ => I)
    (hr : P r) : I (stateLeft (m r)) := by
  have hm := h r hr
  split at hm
  · next heq =>
    rw [heq]
    exact hm
  · next heq =>
    rw [heq]
    exact hm

theorem stateLeft_boundedAt (span : Span) (m : RunM α) (r : Run) :
    stateLeft (Run.boundedAt span m r) = stateLeft (m r) := by
  unfold Run.boundedAt
  split
  · next heq =>
    rw [heq]
    rfl
  · rfl

/-- A node was begun if this is the latest note or an earlier one. -/
theorem began_note_iff : ({ r with journal := r.journal.map (n :: ·) } : Run).Began path ↔
    (r.journal.isSome = true ∧ n = .visit path) ∨ r.Began path := by
  constructor
  · rintro ⟨notes, hnotes, hmem⟩
    obtain ⟨before, hbefore, rfl⟩ := Option.map_eq_some_iff.1 hnotes
    rcases List.mem_cons.1 hmem with hvisit | hmem
    · exact .inl ⟨by rw [hbefore]; rfl, hvisit.symm⟩
    · exact .inr ⟨before, hbefore, hmem⟩
  · rintro (⟨hsome, rfl⟩ | ⟨notes, hnotes, hmem⟩)
    · obtain ⟨notes, hnotes⟩ := Option.isSome_iff_exists.1 hsome
      exact ⟨.visit path :: notes, by rw [hnotes]; rfl, List.mem_cons_self ..⟩
    · exact ⟨n :: notes, by rw [hnotes]; rfl, List.mem_cons_of_mem _ hmem⟩

/-- A note of something else begins no node. -/
theorem not_began_note (hn : n ≠ .visit path) (hr : ¬r.Began path) :
    ¬({ r with journal := r.journal.map (n :: ·) } : Run).Began path := by
  intro hbegan
  rcases began_note_iff.1 hbegan with ⟨-, heq⟩ | hbegan
  · exact hn heq
  · exact hr hbegan

/-- What was begun stays begun. -/
theorem Began.invariant (path : List Nat) :
    Invariant (fun _ => True) (·.Began path) fun _ => (·.Began path) :=
  .ofJournal (fun _ _ _ hr => began_note_iff.2 (.inr hr)) (fun hr h => hr.of_journal h)
    fun _ _ hr => hr

/-- What was not begun is begun by a visit only. -/
theorem Began.invariant_not (path : List Nat) :
    Invariant (fun _ => True) (¬·.Began path) fun _ => (¬·.Began path) :=
  .ofJournal (fun _ _ hn => not_began_note (hn path))
    (fun hr h hbegan => hr (hbegan.of_journal h.symm)) fun _ _ hr => hr

/-- Two states with the same scopes and the same journal, in which both runs write. -/
structure Abreast (r r' : Run) : Prop where
  scopes : r.scopes = r'.scopes
  journal : r.journal = r'.journal
  writes : r.journal.isSome = true

theorem Abreast.note (h : Abreast r r') (n : Note) :
    Abreast { r with journal := r.journal.map (n :: ·) }
      { r' with journal := r'.journal.map (n :: ·) } :=
  ⟨h.scopes, congrArg (Option.map (n :: ·)) h.journal, Option.isSome_map.trans h.writes⟩

/-- Both runs come to the same end and are still abreast. -/
inductive Alike : EStateM.Result RunFault Run α → EStateM.Result RunFault Run α → Prop where
  | ok {a r r'} (h : Abreast r r') : Alike (.ok a r) (.ok a r')
  | error {e r r'} (h : Abreast r r') : Alike (.error e r) (.error e r')

theorem Alike.sameCourse {x x' : EStateM.Result RunFault Run α} (h : Alike x x') :
    SameCourse x x' := by
  cases h with
  | ok h => exact ⟨rfl, h.scopes, h.journal⟩
  | error h => exact ⟨rfl, h.scopes, h.journal⟩

/-- The second step does what the first does, unless the first begins the node at the path `hole`. -/
structure Follows (hole : List Nat) (m m' : RunM α) : Prop where
  grows : Triple (·.Began hole) m (fun _ => (·.Began hole)) fun _ => (·.Began hole)
  alike : ∀ r r', Abreast r r' → (stateLeft (m r)).Began hole ∨ Alike (m r) (m' r')

namespace Follows

theorem pure (a : α) : Follows hole (Pure.pure a) (Pure.pure a) :=
  ⟨Triple.pure fun _ h => h, fun _ _ h => .inr (.ok h)⟩

theorem throw (e : RunFault) : Follows hole (MonadExcept.throw e : RunM α) (MonadExcept.throw e) :=
  ⟨Triple.throw fun _ h => h, fun _ _ h => .inr (.error h)⟩

theorem fail (cause : RuntimeCause) (span : Span) :
    Follows hole (Run.fail cause span : RunM α) (Run.fail cause span) := throw _

theorem note (n : Note) : Follows hole (Run.note n) (Run.note n) :=
  ⟨Triple.note fun _ h => began_note_iff.2 (.inr h), fun _ _ h => .inr (.ok (h.note n))⟩

theorem setCurrent (t t' : Tree) : Follows hole (Run.setCurrent t) (Run.setCurrent t') :=
  ⟨Triple.setCurrent fun _ h => h, fun _ _ h => .inr (.ok ⟨h.scopes, h.journal, h.writes⟩)⟩

theorem store (f : Chain → Chain) :
    Follows hole (modify fun r => { r with scopes := f r.scopes } : RunM PUnit)
      (modify fun r => { r with scopes := f r.scopes }) :=
  ⟨Triple.update fun _ h => h,
    fun _ _ h => .inr (.ok ⟨congrArg f h.scopes, h.journal, h.writes⟩)⟩

theorem scopesFor (path : List Nat) (name : String) :
    Follows hole (Run.scopesFor path name) (Run.scopesFor path name) := by
  refine ⟨Triple.scopesFor fun _ h => began_note_iff.2 (.inr h), fun r r' h => .inr ?_⟩
  obtain ⟨scopes, current, journal⟩ := r
  obtain ⟨scopes', current', journal'⟩ := r'
  obtain rfl : scopes = scopes' := h.scopes
  exact .ok (h.note _)

/-- What depends on the scopes alone depends on the same scopes. -/
theorem read {f f' : Run → RunM α}
    (h : ∀ r r' : Run, r.scopes = r'.scopes → Follows hole (f r) (f' r')) :
    Follows hole (get >>= f) (get >>= f') :=
  ⟨Triple.bind (Triple.read fun _ h => h) fun r => (h r r rfl).grows,
    fun r r' hr => (h r r' hr.scopes).alike r r' hr⟩

theorem bind {m m' : RunM α} {f f' : α → RunM β} (hm : Follows hole m m')
    (hf : ∀ a, Follows hole (f a) (f' a)) : Follows hole (m >>= f) (m' >>= f') := by
  refine ⟨Triple.bind hm.grows fun a => (hf a).grows, fun r r' hr => ?_⟩
  have h := hm.alike r r' hr
  rw [bind_run, bind_run]
  generalize m r = x at h
  generalize m' r' = x' at h
  rcases h with hbegan | halike
  · -- What was begun by the first step stays begun.
    cases x with
    | ok a s => exact .inl ((hf a).grows.left hbegan)
    | error => exact .inl hbegan
  · cases halike with
    | ok h => exact (hf _).alike _ _ h
    | error h => exact .inr (.error h)

theorem inside {m m' : RunM α} (h : Follows hole m m') :
    Follows hole (Run.inside m) (Run.inside m') := by
  refine ⟨Triple.inside h.grows (fun _ h => h) (fun _ _ h => h) fun _ _ h => h, fun r r' hr => ?_⟩
  have h := h.alike { r with scopes := r.scopes.push } { r' with scopes := r'.scopes.push }
    ⟨congrArg Chain.push hr.scopes, hr.journal, hr.writes⟩
  unfold Run.inside
  generalize m { r with scopes := r.scopes.push } = x at h
  generalize m' { r' with scopes := r'.scopes.push } = x' at h
  rcases h with hbegan | halike
  · cases x with
    | ok => exact .inl hbegan
    | error => exact .inl hbegan
  · cases halike with
    | ok h => exact .inr (.ok ⟨congrArg Chain.pop h.scopes, h.journal, h.writes⟩)
    | error h => exact .inr (.error ⟨congrArg Chain.pop h.scopes, h.journal, h.writes⟩)

/-- **Loop rule**: the loops go through the same rounds until the node is begun. -/
theorem rounds {limits : Limits} {span : Span} {body body' : RunM Value}
    (h : Follows hole body body') (left done : Nat) :
    Follows hole (Evaluation.rounds limits span body left done)
      (Evaluation.rounds limits span body' left done) := by
  induction left generalizing done with
  | zero =>
    unfold Evaluation.rounds Evaluation.roundsSpent
    split
    · split
      · exact fail _ _
      · exact throw _
    · exact throw _
  | succ left ih => exact (note _).bind fun _ => h.bind fun _ => ih _

theorem boundedAt {m m' : RunM α} (h : Follows hole m m') (span : Span) :
    Follows hole (Run.boundedAt span m) (Run.boundedAt span m') := by
  refine ⟨Triple.boundedAt h.grows (fun _ h => h) fun _ _ _ h => h, fun r r' hr => ?_⟩
  have h := h.alike r r' hr
  unfold Run.boundedAt
  generalize m r = x at h
  generalize m' r' = x' at h
  rcases h with hbegan | halike
  · cases x with
    | ok => exact .inl hbegan
    | error e => cases e <;> exact .inl hbegan
  · cases halike with
    | ok h => exact .inr (.ok h)
    | @error e _ _ h => cases e <;> exact .inr (.error h)

end Follows

end Run

namespace Evaluation

variable {limits : Limits} {below : Evaluation} {path hole : List Nat} {f : Nat → Tree → Tree}

theorem each_follows {index : Nat} {es : List Tree}
    (h : ∀ i e, Follows hole (below ((index + i) :: path) e) (below ((index + i) :: path) (f i e))) :
    Follows hole (each below path index es) (each below path index (es.mapIdx f)) := by
  induction es generalizing index f with
  | nil => exact .pure _
  | cons e es ih =>
    rw [List.mapIdx_cons]
    refine (h 0 e).bind fun _ => ih fun i e' => ?_
    have := h (i + 1) e'
    rwa [show index + (i + 1) = index + 1 + i by omega] at this

theorem statements_follows {es : List Tree} {tail : Option Tree}
    (h : ∀ i e, Follows hole (below (i :: path) e) (below (i :: path) (f i e))) :
    Follows hole (statements below path es tail)
      (statements below path (es.mapIdx f) (tail.map (f es.length))) := by
  refine Follows.bind (each_follows fun i e => ?_) fun _ => ?_
  · rw [Nat.zero_add]
    exact h i e
  · cases tail with
    | none => exact .pure _
    | some t =>
      rw [List.length_mapIdx]
      exact h es.length t

theorem applyToNumbers_follows {t t' : Tree} (hs : t.span = t'.span) (op : BinaryOperator)
    (x y : Float) : Follows hole (applyToNumbers t op x y) (applyToNumbers t' op x y) := by
  unfold applyToNumbers
  rw [hs]
  split
  · exact .fail _ _
  · split
    · exact .pure _
    · refine (Follows.setCurrent t t').bind fun _ => ?_
      split
      · exact .pure _
      · exact .throw _

theorem applyBinary_follows {t t' : Tree} (hs : t.span = t'.span) (op : BinaryOperator)
    (a b : Value) : Follows hole (applyBinary t op a b) (applyBinary t' op a b) := by
  unfold applyBinary
  split
  · exact .pure _
  · exact .pure _
  · split
    · exact applyToNumbers_follows hs op _ _
    · rw [hs]
      exact .fail _ _

theorem binary_follows {t t' a a' b b' : Tree} (hs : t.span = t'.span) (op : BinaryOperator)
    (ha : Follows hole (below (0 :: path) a) (below (0 :: path) a'))
    (hb : Follows hole (below (1 :: path) b) (below (1 :: path) b')) :
    Follows hole (binary below path t op a b) (binary below path t' op a' b') := by
  refine ha.bind fun v => ?_
  split
  · split
    · exact hb.bind fun _ => .pure _
    · exact .pure _
  · split
    · exact .pure _
    · exact hb.bind fun _ => .pure _
  · exact hb.bind fun w => applyBinary_follows hs op v w

theorem applyUnary_follows (span : Span) (op : UnaryOperator) (a : Value) :
    Follows hole (applyUnary span op a) (applyUnary span op a) := by
  unfold applyUnary
  split
  · exact .pure _
  · split
    · exact .pure _
    · exact .fail _ _

theorem reference_follows (span : Span) (name : String) :
    Follows hole (reference path span name) (reference path span name) := by
  refine (Follows.scopesFor path name).bind fun c => ?_
  split
  · exact .pure _
  · exact .fail _ _

theorem declare_follows (name : String) (v : Value) :
    Follows hole (declare name v) (declare name v) := by
  refine Follows.read fun r r' hr => ?_
  rw [hr]
  split
  · exact (Follows.note _).bind fun _ => (Follows.store _).bind fun _ => .pure _
  · exact (Follows.store _).bind fun _ => .pure _

theorem assignment_follows {e e' : Tree} (span : Span) (name : String)
    (he : Follows hole (below (0 :: path) e) (below (0 :: path) e')) :
    Follows hole (assignment below path span name e) (assignment below path span name e') := by
  refine (Follows.scopesFor path name).bind fun c => ?_
  split
  · exact .fail _ _
  · exact he.bind fun _ => (Follows.store _).bind fun _ => .pure _

/-- **Node rule**: two nodes that are alike are evaluated alike if what is below them is. -/
theorem node_follows (t : Tree)
    (h : ∀ i e, Follows hole (below (i :: path) e) (below (i :: path) (f i e))) :
    Follows hole (node limits below path t) (node limits below path (t.mapChildren f)) := by
  refine (Follows.note _).bind fun _ => (Follows.setCurrent _ _).bind fun _ => ?_
  cases t with
  | literal s v => exact .pure v
  | reference s name => exact reference_follows s name
  | nameless s => exact .fail _ _
  | declaration s name e => exact (h 0 e).bind fun v => declare_follows name v
  | assignment s name e => exact assignment_follows s name (h 0 e)
  | binary s op a b =>
    have hs : (Tree.binary s op a b).span = (Tree.binary s op (f 0 a) (f 1 b)).span := rfl
    exact binary_follows hs op (h 0 a) (h 1 b)
  | unary s op a => exact (h 0 a).bind fun v => applyUnary_follows s op v
  | call s g args => exact (h 0 g).bind fun _ => .fail _ _
  | block s es tail =>
    refine Follows.read fun r r' hr => ?_
    rw [hr]
    exact (Follows.note _).bind fun _ => .inside (statements_follows h)
  | doBlock s b => exact h 0 b
  | loop s b => exact .rounds (h 0 b) _ _
  | bare s => exact .fail _ _

end Evaluation

variable {limits : Limits} {path hole : List Nat}

/-- Evaluation forgets no node that was begun. -/
theorem evaluationAt_began (limits : Limits) (n : Nat) (path : List Nat) (t : Tree) :
    Triple (·.Began hole) (evaluationAt limits n path t) (Kept (fun _ => True) (·.Began hole))
      fun _ => (·.Began hole) := by
  refine evaluationAt_induction (motive := fun _ _ m => Triple (·.Began hole) m
    (Kept (fun _ => True) (·.Began hole)) fun _ => (·.Began hole))
    (fun _ _ => Triple.throw fun _ h => h) (fun below path t ih => ?_) n path t
  exact node_kept_throughout (Began.invariant hole) (fun r hr => began_note_iff.2 (.inr hr))
    fun i u _ => ih _ u

/-- The evaluation of a node begins it, if there is room for it. -/
theorem evaluationAt_begins (limits : Limits) (n : Nat) (path : List Nat) (t : Tree) :
    Triple (·.journal.isSome = true) (evaluationAt limits (n + 1) path t)
      (Kept (fun _ => True) (·.Began path)) fun _ => (·.Began path) := by
  rw [evaluationAt_succ]
  exact node_kept_throughout (Began.invariant path)
    (fun r hr => began_note_iff.2 (.inl ⟨hr, rfl⟩)) fun i u _ => evaluationAt_began limits _ _ u

/-- Evaluation begins only nodes at and below its own. -/
theorem evaluationAt_not_began (limits : Limits) (n : Nat) {path : List Nat} (h : ¬path <:+ hole)
    (t : Tree) :
    Triple (¬·.Began hole) (evaluationAt limits n path t) (Kept (fun _ => True) (¬·.Began hole))
      fun _ => (¬·.Began hole) := by
  revert h
  refine evaluationAt_induction (motive := fun path _ m => ¬path <:+ hole → Triple (¬·.Began hole) m
    (Kept (fun _ => True) (¬·.Began hole)) fun _ => (¬·.Began hole))
    (fun _ _ _ => Triple.throw fun _ h => h) (fun below path t ih h => ?_) n path t
  refine node_kept_throughout (Began.invariant_not hole) (fun r => not_began_note ?_)
    fun i u _ => ih _ u fun hi => ?_
  · rintro ⟨⟩
    exact h (List.suffix_refl _)
  · exact h ((List.suffix_cons i path).trans hi)

/-- **Simulation**: trees that differ at one path are evaluated alike until the node there is begun. -/
theorem evaluationAt_follows (limits : Limits) (n : Nat) {t t' : Tree}
    (h : Tree.DiffersAt hole path t t') :
    Follows hole (evaluationAt limits n path t) (evaluationAt limits n path t') := by
  -- The induction is on the room. Where the trees differ, the node is begun before anything else.
  induction n using Nat.strongRecOn generalizing path t t' with
  | ind n ih =>
    obtain _ | n := n
    · exact .throw .tooDeep
    by_cases hpath : path = hole
    · subst hpath
      refine ⟨(evaluationAt_began limits (n + 1) path t).weaken fun _ _ h => h.2, fun r r' hr => ?_⟩
      exact .inl (((evaluationAt_begins limits n path t).weaken fun _ _ h => h.2).left hr.writes)
    · obtain ⟨f, rfl, hchildren⟩ := h.children hpath
      rw [evaluationAt_succ, evaluationAt_succ, Tree.calls_mapChildren]
      exact node_follows t fun i e => ih _ (t.sub_calls_lt n) (hchildren i e)

namespace Tree

/-- The root of a tree that is evaluated is begun. -/
theorem evaluate_begins (limits : Limits) (t : Tree) {r : Run} (hr : r.journal.isSome = true) :
    (stateLeft (t.evaluate limits r)).Began [] := by
  rw [evaluate, evaluateWithin, stateLeft_boundedAt]
  exact ((evaluationAt_begins limits _ [] t).weaken fun _ _ h => h.2).left hr

theorem evaluate_follows (limits : Limits) (t : Tree) (hhole : hole ≠ []) (f : Tree → Tree) :
    Follows hole (t.evaluate limits) ((t.modifyAt hole f).evaluate limits) := by
  unfold evaluate evaluateWithin
  rw [span_modifyAt hhole]
  exact (evaluationAt_follows limits _ (.modified hole f (List.append_nil _).symm)).boundedAt _

/-- What is done to a part of a tree is done below its statements. -/
theorem run_follows (limits : Limits) (t : Tree) (hhole : hole ≠ []) (f : Tree → Tree) :
    Follows hole (t.run limits) ((t.modifyAt hole f).run limits) := by
  have hdiffers : DiffersAt hole [] t (t.modifyAt hole f) :=
    .modified hole f (List.append_nil _).symm
  obtain ⟨g, hg, hchildren⟩ := hdiffers.children hhole.symm
  unfold run runWithin
  rw [span_modifyAt hhole, hg]
  refine Follows.boundedAt ?_ _
  cases t with
  | block s es tail =>
    exact statements_follows fun i e => evaluationAt_follows limits _ (hchildren i e)
  | _ => exact .throw _

end Tree

end Curly
