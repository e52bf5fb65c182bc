import Curly.Proofs.Run.Depth
import Curly.Proofs.Run.Invariant
import Curly.Proofs.Tree.Roles

/-!
# Limits of loops

A bound on the rounds of loops only cuts runs short. A loop never ends well, so that a run with a value
has not come to a loop at all; any other run either runs into its bound or does not notice it. A bound
that has too many digits for a message is run into in another way than all others.

## Main definitions

* `Run.Ended`: a run that came to a value or to an error of the language.
* `Run.Unwritable`: a run that failed over the message that a bound has been reached.
* `Run.BoundOnlyCuts`: what a bound means for a way to run a tree.

## Main statements

* `Evaluation.rounds_never_succeeds`: no loop has a value.
* `evaluationAt_ends`: bounded evaluation ends within as many calls as the tree asks for.
* `Tree.bound_only_cuts`: evaluating a tree and running its statements are such ways.
-/

namespace Curly

open Run Evaluation

namespace Tree

theorem sizeOf_lt_of_mem_children {t u : Tree} (hu : u ∈ t.children) : sizeOf u < sizeOf t := by
  cases t with
  | literal | reference | nameless | bare => cases hu
  | declaration | assignment | unary | doBlock | loop =>
    obtain rfl := List.mem_singleton.1 hu
    simp only [declaration.sizeOf_spec, assignment.sizeOf_spec, unary.sizeOf_spec,
      doBlock.sizeOf_spec, loop.sizeOf_spec]
    omega
  | binary =>
    rw [binary.sizeOf_spec]
    rcases List.mem_cons.1 hu with rfl | hu
    · omega
    · obtain rfl := List.mem_singleton.1 hu
      omega
  | call s f args =>
    rw [call.sizeOf_spec]
    rcases List.mem_cons.1 hu with rfl | hu
    · omega
    · have := List.sizeOf_lt_of_mem hu
      omega
  | block s es tail =>
    rw [block.sizeOf_spec]
    rcases List.mem_append.1 hu with hu | hu
    · have := List.sizeOf_lt_of_mem hu
      omega
    · obtain rfl := Option.mem_toList.1 hu
      rw [Option.some.sizeOf_spec]
      omega

theorem sizeOf_pos (t : Tree) : 0 < sizeOf t := by
  refine Nat.pos_of_ne_zero ?_
  cases t <;> simp

end Tree

namespace Run

/-- The run came to a value or to an error of the language. -/
def Ended {α : Type} (x : EStateM.Result RunFault Run α) : Prop :=
  (∃ a r, x = .ok a r) ∨ ∃ e r, x = .error (.error e) r

/-- The run was ended by the bound on the rounds of a loop. -/
def LoopLimited {α : Type} (x : EStateM.Result RunFault Run α) : Prop :=
  ∃ limit span r, x = .error (.error ⟨.loopLimit limit, span⟩) r

/-- The run was ended by the bound on the rounds of a loop, and failed once more over the message. -/
def Unwritable {α : Type} (x : EStateM.Result RunFault Run α) : Prop :=
  ∃ limit r, x = .error (.unwritable limit) r

/-- The run was given up. -/
def GivenUp {α : Type} (x : EStateM.Result RunFault Run α) : Prop := ∃ r, x = .error .unfinished r

/-- The evaluation of the node at a path was begun, according to what was written down. -/
def Began (r : Run) (path : List Nat) : Prop := ∃ notes, r.journal = some notes ∧ .visit path ∈ notes

/-- What was begun is read off the journal. -/
theorem Began.of_journal {r r' : Run} {path : List Nat} (h : r'.journal = r.journal)
    (hr : r.Began path) : r'.Began path := by
  obtain ⟨notes, hnotes, hmem⟩ := hr
  exact ⟨notes, h.trans hnotes, hmem⟩

/-- What a bound on the rounds of loops means for a way to run the tree `t`. A run without a bound ends
if it is not given up under some patience, however great. -/
structure BoundOnlyCuts (t : Tree) (run : Limits → RunM Value) : Prop where
  /-- A bounded run ends, and it ends well or in an error of the language if its bound can be written. -/
  ends : ∀ (limit : Int) patience r, Ended (run ⟨some limit, patience⟩ r) ∨
    Unwritable (run ⟨some limit, patience⟩ r) ∧ Numeral.isWritable limit = false
  /-- Only a bound that can be written is reported. -/
  reported : ∀ (limit : Int) patience r, LoopLimited (run ⟨some limit, patience⟩ r) →
    Numeral.isWritable limit = true
  /-- A run that does not run into its bound is the same under every greater bound and under none. -/
  unnoticed : ∀ (limit : Int) patience r, ¬LoopLimited (run ⟨some limit, patience⟩ r) →
    ¬Unwritable (run ⟨some limit, patience⟩ r) →
    (∀ limit' ≥ limit, ∀ patience',
      run ⟨some limit', patience'⟩ r = run ⟨some limit, patience⟩ r) ∧
    ∀ patience' : Nat, limit ≤ patience' → run ⟨none, patience'⟩ r = run ⟨some limit, patience⟩ r
  /-- A run that ends without a bound is the same under every bound that is great enough. -/
  reached : ∀ patience r, ¬GivenUp (run ⟨none, patience⟩ r) →
    (∃ limit : Int, ∀ limit' ≥ limit, ∀ patience',
      run ⟨some limit', patience'⟩ r = run ⟨none, patience⟩ r) ∧
    ∀ patience' ≥ patience, run ⟨none, patience'⟩ r = run ⟨none, patience⟩ r
  /-- A run with a value has begun no loop, and it is the same under all limits. -/
  loopless : ∀ limits r v r', run limits r = .ok v r' →
    (∀ limits', run limits' r = .ok v r') ∧
    (r.journal = some [] → ∀ path, r'.Began path → ∀ s body, t.at? path ≠ some (.loop s body))

end Run

/-- How evaluation may fail under given limits. A loop runs into a bound only if there is one, which it
reports if the bound can be written; a run is given up only if there is no bound; the statements of a tree
that is no block are never asked for; and no operator lacks its arithmetic. -/
inductive Limits.Allows (limits : Limits) : RunFault → Prop where
  | error {cause span} (h : ∀ limit, cause ≠ .loopLimit limit) : Allows limits (.error ⟨cause, span⟩)
  | loopLimit {limit span} (h : limits.loop = some limit) (hw : Numeral.isWritable limit = true) :
      Allows limits (.error ⟨.loopLimit limit, span⟩)
  | unwritable {limit} (h : limits.loop = some limit) (hw : Numeral.isWritable limit = false) :
      Allows limits (.unwritable limit)
  | unfinished (h : limits.loop = none) : Allows limits .unfinished
  | tooDeep : Allows limits .tooDeep

theorem Tree.Raises.allowed {limits : Limits} {t : Tree} {cause : RuntimeCause} {span : Span}
    (h : t.Raises cause span) : limits.Allows (.error ⟨cause, span⟩) := by
  refine .error fun limit => ?_
  cases h <;> exact nofun

namespace Evaluation

variable {limits limits' : Limits} {E : RunFault → Prop}

/-- **No loop has a value**: it repeats its body until something fails. -/
theorem rounds_never_succeeds (limits : Limits) (span : Span) (body : RunM Value)
    (left done : Nat) (r : Run) :
    ∃ e r', rounds limits span body left done r = .error e r' := by
  have hrounds : Triple (fun _ => True) (rounds limits span body left done) (fun _ _ => False)
      fun _ _ => True :=
    Triple.rounds (fun _ _ _ => trivial) (Triple.any body) (fun _ _ _ _ _ => trivial)
      (fun _ _ _ _ _ => trivial) (fun _ _ _ => trivial) left done
  have h := hrounds r trivial
  split at h
  · exact h.elim
  · next e r' heq => exact ⟨e, r', heq⟩

/-- A loop of at most as many rounds does the same, unless it is cut short. -/
theorem rounds_upTo_cutShort (hl : roundsAllowed limits ≤ roundsAllowed limits') (span : Span)
    {body body' : RunM Value} (h : UpTo RunFault.CutShort body body') :
    UpTo RunFault.CutShort (rounds limits span body (roundsAllowed limits) 0)
      (rounds limits' span body' (roundsAllowed limits') 0) := by
  refine rounds_upTo h hl (fun more done _ => ?_) 0
  unfold roundsSpent
  split
  · next limit _ =>
    split
    · exact .fault (.inr (.inr ⟨limit, span, rfl⟩))
    · exact .fault (.inr (.inl ⟨limit, rfl⟩))
  · exact .fault (.inl rfl)

/-- Under any limits a loop does the same, unless it fails: it always does. -/
theorem rounds_upTo_failure (span : Span) {body body' : RunM Value} (left left' : Nat) :
    UpTo (fun _ => True) (rounds limits span body left 0) (rounds limits' span body' left' 0) := by
  intro r
  obtain ⟨e, r', h⟩ := rounds_never_succeeds limits span body left 0 r
  exact .inl ⟨e, r', trivial, h⟩

end Evaluation

namespace Run

/-- States and values about which nothing is said. -/
theorem Invariant.trivial {E : RunFault → Prop} :
    Invariant (fun _ => True) (fun _ => True) (fun e _ => E e) := by
  constructor <;> intros <;> trivial

/-- The states of a run that has begun no loop of the tree `t`. -/
def Loopless (t : Tree) (r : Run) : Prop :=
  ∀ path, r.Began path → ∀ s body, t.at? path ≠ some (.loop s body)

theorem Loopless.note {t : Tree} {r : Run} {n : Note} (h : Loopless t r)
    (hn : ∀ path s body, n = .visit path → t.at? path ≠ some (.loop s body)) :
    Loopless t { r with journal := r.journal.map (n :: ·) } := by
  rintro path ⟨notes, hnotes, hmem⟩ s body
  obtain ⟨before, hbefore, rfl⟩ := Option.map_eq_some_iff.1 hnotes
  rcases List.mem_cons.1 hmem with hvisit | hmem
  · exact hn path s body hvisit.symm
  · exact h path ⟨before, hbefore, hmem⟩ s body

theorem Loopless.invariant (t : Tree) :
    Invariant (fun _ => True) (Loopless t) fun _ _ => True := by
  refine .ofJournal (fun n r hn hr => ?_) (fun hr h path hbegan => ?_) fun _ _ _ => True.intro
  · exact hr.note fun path _ _ hvisit => absurd hvisit (hn path)
  · exact hr path (hbegan.of_journal h.symm)

end Run

variable {limits limits' : Limits}

theorem evaluationAt_allows (limits : Limits) (n : Nat) (path : List Nat) (t : Tree) :
    Triple (fun _ => True) (evaluationAt limits n path t) (Kept (fun _ => True) fun _ => True)
      fun e _ => limits.Allows e := by
  refine evaluationAt_induction (motive := fun _ _ m => Triple (fun _ => True) m
    (Kept (fun _ => True) fun _ => True) fun e _ => limits.Allows e)
    (fun _ _ => Triple.throw fun _ _ => .tooDeep) (fun below path t ih => ?_) n path t
  refine node_kept .trivial (fun _ hr => hr) (fun _ _ _ => trivial) (fun _ _ h _ _ => h.allowed)
    (fun s body _ hbody => ?_) fun i u _ => ih _ u
  exact rounds_kept .trivial (fun _ _ hl hw _ => .loopLimit hl hw)
    (fun _ _ hl hw _ => .unwritable hl hw) (fun _ hl _ => .unfinished hl) hbody _ _

/-- **Evaluation comes to an end of the room only in trees that are nested**: two calls for every node are
enough. -/
theorem evaluationAt_ends {n : Nat} {t : Tree} (hn : 2 * sizeOf t ≤ n) (path : List Nat) :
    Triple (fun _ => True) (evaluationAt limits n path t) (Kept (fun _ => True) fun _ => True)
      fun e _ => e ≠ .tooDeep := by
  induction n using Nat.strongRecOn generalizing path t with
  | ind n ih =>
    obtain _ | n := n
    · have := t.sizeOf_pos
      omega
    rw [evaluationAt_succ]
    refine node_kept .trivial (fun _ hr => hr) (fun _ _ _ => trivial) (fun _ _ _ _ _ => nofun)
      (fun s body _ hbody => ?_) fun i u hu => ih _ (t.sub_calls_lt n) ?_ _
    · exact rounds_kept .trivial (fun _ _ _ _ _ => nofun) (fun _ _ _ _ _ => nofun)
        (fun _ _ _ => nofun) hbody _ _
    · have := Tree.sizeOf_lt_of_mem_children (List.mem_of_getElem? hu)
      have := t.calls_le
      omega

/-- A loop under a bound that is not positive ends before its first round. -/
theorem evaluationAt_loop_of_nonpos {limit : Int} (h : limit ≤ 0) (s : Span) (body : Tree)
    (patience n : Nat) (path : List Nat) (r : Run) :
    evaluationAt ⟨some limit, patience⟩ (n + 1) path (.loop s body) r =
      .error (if Numeral.isWritable limit then .error ⟨.loopLimit limit, s⟩ else .unwritable limit)
        ⟨r.scopes, some (.loop s body), r.journal.map (.visit path :: ·)⟩ := by
  have hrounds : roundsAllowed ⟨some limit, patience⟩ = 0 := Int.toNat_of_nonpos h
  rw [evaluationAt_succ]
  show rounds _ s _ (roundsAllowed ⟨some limit, patience⟩) 0 _ = _
  rw [hrounds, rounds]
  unfold roundsSpent
  dsimp only
  cases Numeral.isWritable limit <;> rfl

/-- Evaluation that comes to a value begins no loop on its way. -/
theorem evaluationAt_loopless (limits : Limits) (n : Nat) {root t : Tree} {path : List Nat}
    (ht : root.at? path = some t) :
    Triple (Loopless root) (evaluationAt limits n path t) (Kept (fun _ => True) (Loopless root))
      fun _ _ => True := by
  revert ht
  refine evaluationAt_induction (motive := fun path t m => root.at? path = some t →
    Triple (Loopless root) m (Kept (fun _ => True) (Loopless root)) fun _ _ => True)
    (fun _ _ _ => Triple.throw fun _ _ => trivial) (fun below path t ih ht => ?_) n path t
  by_cases hloop : ∃ s body, t = .loop s body
  · obtain ⟨s, body, rfl⟩ := hloop
    intro r _
    have hfails : ∃ e r', node limits below path (.loop s body) r = .error e r' :=
      rounds_never_succeeds ..
    obtain ⟨e, r', h⟩ := hfails
    rw [h]
    trivial
  · refine node_kept (Loopless.invariant root) (fun r hr => hr.note ?_) (fun _ _ _ => trivial)
      (fun _ _ _ _ _ => trivial) (fun s body h => absurd ⟨s, body, h⟩ hloop) fun i u hu => ih _ u ?_
    · intro path' s body hvisit hbody
      cases hvisit
      exact hloop ⟨s, body, Option.some.inj (ht.symm.trans hbody)⟩
    · rw [Tree.at?_cons ht, hu]

namespace Run

variable {t : Tree} {run : Limits → RunM Value}

/-- A bound is only reported if it is there and can be written. -/
theorem loop_of_loopLimited {limits : Limits} {m : RunM Value} {E : RunFault → Prop}
    (h : Triple (fun _ => True) m (fun _ _ => True) fun e _ => limits.Allows e ∧ E e) {r : Run}
    (hr : LoopLimited (m r)) :
    ∃ limit, limits.loop = some limit ∧ Numeral.isWritable limit = true := by
  obtain ⟨limit, span, r', heq⟩ := hr
  cases (h.of_error trivial heq).1 with
  | error hcause => exact absurd rfl (hcause limit)
  | loopLimit hl hw => exact ⟨limit, hl, hw⟩

/-- Only a bound that cannot be written is run into in the other way. -/
theorem loop_of_unwritable {limits : Limits} {m : RunM Value} {E : RunFault → Prop}
    (h : Triple (fun _ => True) m (fun _ _ => True) fun e _ => limits.Allows e ∧ E e) {r : Run}
    (hr : Unwritable (m r)) :
    ∃ limit, limits.loop = some limit ∧ Numeral.isWritable limit = false := by
  obtain ⟨limit, r', heq⟩ := hr
  cases (h.of_error trivial heq).1 with
  | unwritable hl hw => exact ⟨limit, hl, hw⟩

/-- Only runs without a bound are given up. -/
theorem loop_of_givenUp {limits : Limits} {m : RunM Value} {E : RunFault → Prop}
    (h : Triple (fun _ => True) m (fun _ _ => True) fun e _ => limits.Allows e ∧ E e) {r : Run}
    (hr : GivenUp (m r)) : limits.loop = none := by
  obtain ⟨r', heq⟩ := hr
  cases (h.of_error trivial heq).1 with
  | unfinished hl => exact hl

/-- What fails as evaluation does, and has the room for it, ends if it is bounded. -/
theorem ends_of_allows {limit : Int} {patience : Nat} {m : RunM Value}
    (h : Triple (fun _ => True) m (fun _ _ => True) fun e _ =>
      (Limits.mk (some limit) patience).Allows e ∧ e ≠ .tooDeep) (r : Run) :
    Ended (m r) ∨ Unwritable (m r) ∧ Numeral.isWritable limit = false := by
  cases heq : m r with
  | ok v r' => exact .inl (.inl ⟨v, r', rfl⟩)
  | error e r' =>
    obtain ⟨hallowed, hdeep⟩ := h.of_error trivial heq
    cases hallowed with
    | error | loopLimit => exact .inl (.inr ⟨_, r', rfl⟩)
    | unwritable hl hw =>
      cases hl
      exact .inr ⟨⟨_, r', rfl⟩, hw⟩
    | unfinished hl => cases hl
    | tooDeep => exact absurd rfl hdeep

/-- A run that neither runs into its bound nor is given up is the same where more is allowed. -/
theorem eq_of_uncut {m m' : RunM Value} (h : UpTo RunFault.CutShort m m') {r : Run}
    (hlimited : ¬LoopLimited (m r)) (hunwritable : ¬Unwritable (m r)) (hgiven : ¬GivenUp (m r)) :
    m' r = m r := by
  refine (h.eq_of_not fun e r' heq hshort => ?_).symm
  rcases hshort with rfl | ⟨limit, rfl⟩ | ⟨limit, span, rfl⟩
  · exact hgiven ⟨r', heq⟩
  · exact hunwritable ⟨limit, r', heq⟩
  · exact hlimited ⟨limit, span, r', heq⟩

/-- A way to run a tree that is the same under all limits as far as loops are, and that fails as
evaluation does, is only cut short by a bound. -/
theorem BoundOnlyCuts.of_evaluation
    (hcut : ∀ limits limits', roundsAllowed limits ≤ roundsAllowed limits' →
      UpTo RunFault.CutShort (run limits) (run limits'))
    (hfailure : ∀ limits limits', UpTo (fun _ => True) (run limits) (run limits'))
    (hallows : ∀ limits, Triple (fun _ => True) (run limits) (fun _ _ => True)
      fun e _ => limits.Allows e ∧ e ≠ .tooDeep)
    (hloopless : ∀ limits, Triple (Loopless t) (run limits) (fun _ => Loopless t) fun _ _ => True) :
    BoundOnlyCuts t run where
  ends := fun _ _ r => ends_of_allows (hallows _) r
  reported := by
    intro limit patience r hlimited
    obtain ⟨_, hl, hw⟩ := loop_of_loopLimited (hallows _) hlimited
    cases hl
    exact hw
  unnoticed := by
    intro limit patience r hlimited hunwritable
    have same : ∀ limits', limit.toNat ≤ roundsAllowed limits' →
        run limits' r = run ⟨some limit, patience⟩ r := by
      intro limits' h
      refine eq_of_uncut (hcut ⟨some limit, patience⟩ limits' h) hlimited hunwritable fun hgiven => ?_
      cases loop_of_givenUp (hallows _) hgiven
    refine ⟨fun limit' h patience' => same _ ?_, fun patience' h => same _ ?_⟩
    · show limit.toNat ≤ limit'.toNat
      omega
    · show limit.toNat ≤ patience'
      omega
  reached := by
    intro patience r hgiven
    have same : ∀ limits', patience ≤ roundsAllowed limits' →
        run limits' r = run ⟨none, patience⟩ r := by
      intro limits' h
      refine eq_of_uncut (hcut ⟨none, patience⟩ limits' h) (fun hr => ?_) (fun hr => ?_) hgiven
      · obtain ⟨_, hl, -⟩ := loop_of_loopLimited (hallows _) hr
        cases hl
      · obtain ⟨_, hl, -⟩ := loop_of_unwritable (hallows _) hr
        cases hl
    refine ⟨⟨patience, fun limit' h patience' => same _ ?_⟩, fun patience' h => same _ h⟩
    show patience ≤ limit'.toNat
    omega
  loopless := by
    intro limits r v r' heq
    refine ⟨fun limits' => ?_, fun hjournal => ?_⟩
    · rcases hfailure limits limits' r with ⟨e, r'', -, h⟩ | h
      · cases heq.symm.trans h
      · exact h.symm.trans heq
    · refine (hloopless limits).of_ok ?_ heq
      rintro path ⟨notes, hnotes, hmem⟩
      rw [hjournal] at hnotes
      cases hnotes
      cases hmem

end Run

namespace Tree

theorem not_cutShort_tooDeep : ¬RunFault.CutShort .tooDeep := by
  rintro (h | ⟨_, h⟩ | ⟨_, _, h⟩) <;> cases h

theorem evaluate_boundOnlyCuts (t : Tree) : BoundOnlyCuts t fun limits => t.evaluate limits := by
  refine .of_evaluation (fun limits limits' hl => ?_) (fun limits limits' => ?_)
    (fun limits => ?_) fun limits => ?_
  · exact (evaluationAt_upTo_limits (fun span _ _ => rounds_upTo_cutShort hl span) _ _ t).boundedAt
      fun h => absurd h not_cutShort_tooDeep
  · exact (evaluationAt_upTo_limits (fun span _ _ _ => rounds_upTo_failure span _ _) _ _
      t).boundedAt id
  · exact Triple.boundedAt ((evaluationAt_allows limits _ _ t).weaken fun _ _ _ => True.intro)
      (fun _ _ => ⟨.error nofun, nofun⟩) fun _ _ hdeep h => ⟨h, hdeep⟩
  · exact Triple.boundedAt ((evaluationAt_loopless limits _ rfl).weaken fun _ _ h => h.2)
      (fun _ h => h) fun _ _ _ h => h

theorem run_boundOnlyCuts (s : Span) (es : List Tree) (tail : Option Tree) :
    BoundOnlyCuts (.block s es tail) fun limits => run limits (.block s es tail) := by
  refine .of_evaluation (fun limits limits' hl => ?_) (fun limits limits' => ?_)
    (fun limits => ?_) fun limits => ?_
  · refine (statements_upTo (fun p u => ?_) [] es tail).boundedAt
      fun h => absurd h not_cutShort_tooDeep
    exact evaluationAt_upTo_limits (fun span _ _ => rounds_upTo_cutShort hl span) _ p u
  · refine (statements_upTo (fun p u => ?_) [] es tail).boundedAt id
    exact evaluationAt_upTo_limits (fun span _ _ _ => rounds_upTo_failure span _ _) _ p u
  · refine Triple.boundedAt (Triple.weaken (statements_kept (s := s) .trivial fun i u _ =>
      evaluationAt_allows limits _ [i] u) fun _ _ _ => True.intro)
      (fun _ _ => ⟨.error nofun, nofun⟩) fun _ _ hdeep h => ⟨h, hdeep⟩
  · refine Triple.boundedAt (Triple.weaken (statements_kept (s := s)
      (Loopless.invariant (.block s es tail)) fun i u hu => ?_) fun _ _ h => h.2)
        (fun _ h => h) fun _ _ _ h => h
    exact evaluationAt_loopless limits _ ((at?_cons (at?_nil _) i).trans hu)

/-- **A bound on loops only cuts runs short.** Under a bound evaluation ends, in fact within two calls for
every node of the tree, whatever the scopes. How it ends is the same under every greater bound and
under none, unless it ran into the bound; a run that ends without a bound does the same under every
bound that is great enough; and a run with a value begins no loop. All of this holds of the evaluation
of any tree and of the statements of any block. A run that runs into its bound ends in an error of the
language that says so if and only if the bound can be written. -/
theorem bound_only_cuts (t : Tree) :
    BoundOnlyCuts t (fun limits => t.evaluate limits) ∧
    (∀ s es tail, t = .block s es tail → BoundOnlyCuts t fun limits => t.run limits) ∧
    ∃ calls, ∀ (limit : Int) patience path r,
      (Ended (evaluationAt ⟨some limit, patience⟩ calls path t r) ∨
        Unwritable (evaluationAt ⟨some limit, patience⟩ calls path t r) ∧
          Numeral.isWritable limit = false) ∧
      ∀ n ≥ calls, evaluationAt ⟨some limit, patience⟩ n path t r =
        evaluationAt ⟨some limit, patience⟩ calls path t r := by
  refine ⟨t.evaluate_boundOnlyCuts, ?_, 2 * sizeOf t, fun limit patience path r => ⟨?_, fun n hn => ?_⟩⟩
  · rintro s es tail rfl
    exact run_boundOnlyCuts s es tail
  · exact ends_of_allows (((evaluationAt_allows _ _ path t).and
      (evaluationAt_ends (Nat.le_refl _) path)).consequence (fun _ h => ⟨h, h⟩)
        (fun _ _ _ => True.intro) fun _ _ h => h) r
  · refine ((evaluationAt_upTo _ hn path t).eq_of_not fun e r' heq hdeep => ?_).symm
    exact (evaluationAt_ends (Nat.le_refl _) path).of_error trivial heq hdeep

theorem evaluate_loop_of_nonpos {limit : Int} (h : limit ≤ 0) (s : Span) (body : Tree) (patience : Nat)
    (r : Run) : ∃ r', (Tree.loop s body).evaluate ⟨some limit, patience⟩ r =
      .error (if Numeral.isWritable limit then .error ⟨.loopLimit limit, s⟩ else .unwritable limit) r' := by
  obtain ⟨n, hn⟩ : ∃ n, nestingLimit = n + 1 := ⟨_, rfl⟩
  have hloop := evaluationAt_loop_of_nonpos h s body patience n [] r
  refine ⟨⟨r.scopes, some (.loop s body), r.journal.map (.visit [] :: ·)⟩, ?_⟩
  unfold evaluate evaluateWithin boundedAt
  rw [hn, hloop]
  cases Numeral.isWritable limit <;> rfl

/-- Under a bound with too many digits for a message, a loop ends in another way than under the greater
bound zero, but not in the error that says so. -/
theorem loop_past_writable_bound :
    let loop : Tree := .loop (.ofLength 0 8) (.block (.ofLength 5 3) [] none)
    let limit : Int := -Nat.pow 10 Numeral.maxDigits
    limit ≤ 0 ∧ ¬LoopLimited (loop.evaluate ⟨some limit, 0⟩ ⟨[[]], none, none⟩) ∧
      LoopLimited (loop.evaluate ⟨some 0, 0⟩ ⟨[[]], none, none⟩) := by
  intro loop limit
  have hlimit : limit ≤ 0 := Int.neg_nonpos_of_nonneg (Int.natCast_nonneg _)
  have hw : Numeral.isWritable limit = false := Numeral.isWritable_neg_pow
  refine ⟨hlimit, ?_, ?_⟩
  · obtain ⟨r', h⟩ := evaluate_loop_of_nonpos hlimit (.ofLength 0 8) (.block (.ofLength 5 3) [] none) 0
      ⟨[[]], none, none⟩
    rintro ⟨_, _, _, hlimited⟩
    rw [h, hw] at hlimited
    cases hlimited
  · obtain ⟨r', h⟩ := evaluate_loop_of_nonpos (Int.le_refl 0) (.ofLength 0 8)
      (.block (.ofLength 5 3) [] none) 0 ⟨[[]], none, none⟩
    rw [Numeral.isWritable_zero] at h
    exact ⟨0, .ofLength 0 8, r', h⟩

end Tree

end Curly
