import Curly.Proofs.Run.Unvisited

/-!
# Children that are passed over

The evaluation of a node does not begin all nodes below it. Arguments of a call are never begun, and other
children are not if the value is settled or the evaluation has failed before it comes to them.

## Main definitions

* `Evaluation.Skips`: the children that the evaluation of a node passes over.

## Main statements

* `Evaluation.Skips.not_began`: what is passed over is not begun.
* `Tree.unvisited_irrelevant`: a subtree whose root is never begun may be replaced by any tree.
-/

namespace Curly

open Run Evaluation

namespace Run

/-- The state in which a node has just been begun. -/
def beginning (path : List Nat) (t : Tree) (r : Run) : Run :=
  { r with current := some t, journal := r.journal.map (.visit path :: ·) }

/-- The state in the scope of a block that has just been entered. -/
def entering (r : Run) : Run where
  scopes := r.scopes.push
  current := r.current
  journal := r.journal.map (.enterBlock (r.scopes.depth + 1) :: ·)

end Run

namespace Evaluation

/-- `Skips below path r t i`: the evaluation of the node `t` at `path`, which begins in the state `r`,
passes over child `i`. It is an argument of a call, the value for a name that has no binding, the right
operand where the left one settles the value or fails, or a statement or tail behind one that fails. -/
inductive Skips (below : Evaluation) (path : List Nat) (r : Run) : Tree → Nat → Prop where
  | argument {s f args} (i : Nat) : Skips below path r (.call s f args) (i + 1)
  | undefined {s name e} (h : r.scopes.owner? name = none) :
      Skips below path r (.assignment s name e) 0
  | conjunction {s a b v r'} (h : below (0 :: path) a (r.beginning path (.binary s .and a b)) = .ok v r')
      (hv : v.truthy = false) : Skips below path r (.binary s .and a b) 1
  | disjunction {s a b v r'} (h : below (0 :: path) a (r.beginning path (.binary s .or a b)) = .ok v r')
      (hv : v.truthy = true) : Skips below path r (.binary s .or a b) 1
  | operand {s op a b e r'}
      (h : below (0 :: path) a (r.beginning path (.binary s op a b)) = .error e r') :
      Skips below path r (.binary s op a b) 1
  | statement {s es tail e r'} (i : Nat)
      (h : each below path 0 (es.take i) (r.beginning path (.block s es tail)).entering = .error e r') :
      Skips below path r (.block s es tail) i

variable {limits : Limits} {below : Evaluation} {path : List Nat} {r r' : Run} {t : Tree}

/-- A node is not a part of its sibling. -/
theorem not_suffix_sibling {i j : Nat} (h : j ≠ i) : ¬j :: path <:+ i :: path := by
  intro hsuffix
  have heq := hsuffix.eq_of_length rfl
  exact h (List.cons.inj heq).1

theorem not_began_beginning {i : Nat} (h : ¬r.Began (i :: path)) :
    ¬(r.beginning path t).Began (i :: path) := by
  refine not_began_note (fun heq => ?_) h
  injection heq with heq
  exact List.cons_ne_self i path heq.symm

/-- Statements behind one that fails are not reached. -/
theorem each_append_error {index : Nat} {es : List Tree} {e : RunFault}
    (h : each below path index es r = .error e r') (rest : List Tree) :
    each below path index (es ++ rest) r = .error e r' := by
  induction es generalizing index r with
  | nil => cases h
  | cons t es ih =>
    rw [List.cons_append, each, bind_run]
    rw [each, bind_run] at h
    cases hfirst : below (index :: path) t r with
    | ok v s =>
      rw [hfirst] at h
      exact ih h
    | error e' s =>
      rw [hfirst] at h
      exact h

/-- Of some statements only these are begun. -/
theorem each_not_began (n : Nat) (i : Nat) (es : List Tree) :
    Triple (¬·.Began (i :: path)) (each (evaluationAt limits n) path 0 (es.take i))
      (fun _ => (¬·.Began (i :: path))) fun _ => (¬·.Began (i :: path)) := by
  refine each_kept (V := fun _ => True) fun j e he => ?_
  have hj : j < i := by
    have := (List.getElem?_eq_some_iff.1 he).1
    rw [List.length_take] at this
    omega
  exact evaluationAt_not_began limits n (not_suffix_sibling (by omega)) e

/-- Statements fail as soon as some of them do. -/
theorem statements_error {es : List Tree} {tail : Option Tree} {i : Nat} {e : RunFault}
    (h : each below path 0 (es.take i) r = .error e r') :
    statements below path es tail r = .error e r' := by
  have hall := each_append_error h (es.drop i)
  rw [List.take_append_drop] at hall
  unfold statements
  rw [bind_run, hall]

/-- A block fails as its statements fail, and its scope is gone. -/
theorem block_error {es : List Tree} {tail : Option Tree} {e : RunFault}
    (h : statements below path es tail r.entering = .error e r') :
    block below path es tail r = .error e { r' with scopes := r'.scopes.pop } := by
  have hinside : ∀ {m : RunM Value} {q : Run}, m { q with scopes := q.scopes.push } = .error e r' →
      inside m q = .error e { r' with scopes := r'.scopes.pop } := by
    intro m q hm
    unfold inside
    rw [hm]
  exact hinside h

/-- The right operand does not matter where the left one fails. -/
theorem binary_error {op : BinaryOperator} {a b : Tree} {e : RunFault}
    (h : below (0 :: path) a r = .error e r') : binary below path t op a b r = .error e r' := by
  rw [binary, bind_run, h]

/-- The right operand does not matter where the left one settles the value. -/
theorem binary_and_settled {a b : Tree} {v : Value} (h : below (0 :: path) a r = .ok v r')
    (hv : v.truthy = false) : binary below path t .and a b r = .ok (.bool false) r' := by
  rw [binary, bind_run, h]
  dsimp only
  rw [if_neg (by rw [hv]; exact Bool.false_ne_true)]
  rfl

theorem binary_or_settled {a b : Tree} {v : Value} (h : below (0 :: path) a r = .ok v r')
    (hv : v.truthy = true) : binary below path t .or a b r = .ok (.bool true) r' := by
  rw [binary, bind_run, h]
  dsimp only
  rw [if_pos hv]
  rfl

/-- The value for a name that has no binding does not matter. -/
theorem assignment_undefined {s : Span} {name : String} {e : Tree}
    (h : r.scopes.owner? name = none) : assignment below path s name e r =
      .error (.error ⟨.undefinedVariable name, .ofLength s.start name.length⟩)
        { r with journal := r.journal.map (.lookUp path name none :: ·) } := by
  rw [assignment, scopesFor_bind_run, h]
  rfl

/-- **What is passed over is not begun.** -/
theorem Skips.not_began {n i : Nat} (h : Skips (evaluationAt limits (n + 1 - t.calls)) path r t i)
    (hr : ¬r.Began (i :: path)) :
    ¬(stateLeft (evaluationAt limits (n + 1) path t r)).Began (i :: path) := by
  rw [evaluationAt_succ]
  generalize n + 1 - t.calls = n at h ⊢
  have hbegin := not_began_beginning (t := t) hr
  have sibling : ∀ {j : Nat} (u : Tree), j ≠ i →
      Triple (¬·.Began (i :: path)) (evaluationAt limits n (j :: path) u)
        (fun _ => (¬·.Began (i :: path))) fun _ => (¬·.Began (i :: path)) :=
    fun u hj => (evaluationAt_not_began limits n (not_suffix_sibling hj) u).weaken fun _ _ h => h.2
  -- The node is begun first, and what it does then is done in the state after that.
  have run : ∀ {m : RunM Value} {x : EStateM.Result RunFault Run Value},
      node limits (evaluationAt limits n) path t r = m (r.beginning path t) →
      m (r.beginning path t) = x → ¬(stateLeft x).Began (i :: path) →
      ¬(stateLeft (node limits (evaluationAt limits n) path t r)).Began (i :: path) := by
    intro m x hm hx h
    rwa [hm, hx]
  cases h with
  | argument i =>
    have hcallee := fun f => sibling f (Nat.succ_ne_zero i).symm
    exact (Triple.bind (hcallee _) fun _ => Triple.fail fun _ h => h).left hbegin
  | @undefined s name e h =>
    exact run rfl (assignment_undefined h) (not_began_note nofun hbegin)
  | @conjunction s a b v r' h hv =>
    exact run rfl (binary_and_settled (t := .binary s .and a b) h hv)
      ((sibling a Nat.zero_ne_one).of_ok hbegin h)
  | @disjunction s a b v r' h hv =>
    exact run rfl (binary_or_settled (t := .binary s .or a b) h hv)
      ((sibling a Nat.zero_ne_one).of_ok hbegin h)
  | @operand s op a b e r' h =>
    exact run rfl (binary_error (t := .binary s op a b) h)
      ((sibling a Nat.zero_ne_one).of_error hbegin h)
  | @statement s es tail e r' i h =>
    have hentered : ¬(r.beginning path (.block s es tail)).entering.Began (i :: path) :=
      not_began_note nofun hbegin
    have hfailed := (each_not_began n i es).of_error hentered h
    exact run rfl (block_error (statements_error h)) hfailed

end Evaluation

variable {limits : Limits} {p path hole : List Nat} {root t f : Tree} {s : Span} {args : List Tree}

/-- Arguments of calls are never begun, and neither is anything in them. -/
theorem evaluationAt_argument (limits : Limits) (n : Nat) {i : Nat}
    (hcall : root.at? p = some (.call s f args)) (hhole : (i + 1) :: p <:+ hole)
    (ht : root.at? path = some t) (hpath : ¬(i + 1) :: p <:+ path) :
    Triple (¬·.Began hole) (evaluationAt limits n path t) (Kept (fun _ => True) (¬·.Began hole))
      fun _ => (¬·.Began hole) := by
  revert ht hpath
  refine evaluationAt_induction (motive := fun path t m => root.at? path = some t →
    ¬(i + 1) :: p <:+ path → Triple (¬·.Began hole) m (Kept (fun _ => True) (¬·.Began hole))
      fun _ => (¬·.Began hole))
    (fun _ _ _ _ => Triple.throw fun _ h => h) (fun below path t ih ht hpath => ?_) n path t
  have hvisit : ∀ r : Run, ¬r.Began hole →
      ¬({ r with journal := r.journal.map (.visit path :: ·) } : Run).Began hole := by
    refine fun r => not_began_note ?_
    rintro ⟨⟩
    exact hpath hhole
  have hI := Began.invariant_not hole
  by_cases hp : path = p
  · -- Of a call only the callee is evaluated.
    subst hp
    cases ht.symm.trans hcall
    have hchild : ¬(i + 1) :: path <:+ 0 :: path := not_suffix_sibling (Nat.succ_ne_zero i)
    have hcallee := ih _ _ ((Tree.at?_cons hcall 0).trans rfl) hchild
    refine Triple.bind (Triple.note hvisit) fun _ => Triple.bind (hI.current _) fun _ => ?_
    exact Kept.bind hcallee fun _ _ => Triple.fail fun _ h => h
  · refine node_kept_throughout hI hvisit fun j u hu =>
      ih _ u ((Tree.at?_cons ht j).trans hu) fun hj => ?_
    rcases List.suffix_cons_iff.1 hj with heq | hsuffix
    · exact hp (List.cons.inj heq).2.symm
    · exact hpath hsuffix

namespace Tree

variable {path : List Nat} {r : Run}

theorem evaluate_argument (limits : Limits) {i : Nat} (hcall : t.at? path = some (.call s f args))
    (hr : ¬r.Began ((i + 1) :: path)) :
    ¬(stateLeft (t.evaluate limits r)).Began ((i + 1) :: path) := by
  have hnil : ¬(i + 1) :: path <:+ [] := fun h => List.cons_ne_nil _ _ (List.suffix_nil.1 h)
  have hkept := evaluationAt_argument limits nestingLimit hcall (List.suffix_refl _) (at?_nil t) hnil
  rw [evaluate, evaluateWithin, stateLeft_boundedAt]
  exact (hkept.weaken fun _ _ h => h.2).left hr

theorem stateLeft_run (limits : Limits) (s : Span) (es : List Tree) (tail : Option Tree) (r : Run) :
    stateLeft ((block s es tail).run limits r) =
      stateLeft (statements (evaluationAt limits (nestingLimit - 1)) [] es tail r) := by
  rw [run, runWithin, stateLeft_boundedAt]

theorem run_argument (limits : Limits) {i : Nat} (hcall : t.at? path = some (.call s f args))
    (hr : ¬r.Began ((i + 1) :: path)) : ¬(stateLeft (t.run limits r)).Began ((i + 1) :: path) := by
  cases t with
  | block s' es tail =>
    have hkept : Triple (¬·.Began ((i + 1) :: path))
        (statements (evaluationAt limits (nestingLimit - 1)) [] es tail)
        (Kept (fun _ => True) (¬·.Began ((i + 1) :: path)))
        fun _ => (¬·.Began ((i + 1) :: path)) := by
      refine statements_kept (s := s') (Began.invariant_not _) fun j u hu => ?_
      refine evaluationAt_argument limits _ hcall (List.suffix_refl _)
        ((at?_cons (at?_nil _) j).trans hu) fun hj => ?_
      -- The block that is run is no call.
      rcases List.suffix_cons_iff.1 hj with heq | hsuffix
      · obtain rfl := (List.cons.inj heq).2
        cases hcall
      · exact List.cons_ne_nil _ _ (List.suffix_nil.1 hsuffix)
    rw [stateLeft_run]
    exact (hkept.weaken fun _ _ h => h.2).left hr
  | _ => exact hr

/-- **What is not evaluated does not matter.** A subtree whose root is never begun may be replaced by any
tree: the outcome, the scopes and the journal stay the same. This holds of the evaluation of a tree and of
the statements of a block. Never begun are the arguments of calls; in the evaluation of a node the value
for a name that has no binding, the right operand of a conjunction or disjunction that the left one
settles, and the right operand of one that fails; and the statements and the tail behind a statement that
fails. -/
theorem unvisited_irrelevant (limits : Limits) (t : Tree) {r : Run} (hr : r.journal = some []) :
    (∀ path u, ¬(stateLeft (t.evaluate limits r)).Began path →
      SameCourse (t.evaluate limits r) ((t.replaceAt path u).evaluate limits r)) ∧
    (∀ path u, path ≠ [] → ¬(stateLeft (t.run limits r)).Began path →
      SameCourse (t.run limits r) ((t.replaceAt path u).run limits r)) ∧
    (∀ path s f args i, t.at? path = some (.call s f args) →
      ¬(stateLeft (t.evaluate limits r)).Began ((i + 1) :: path) ∧
        ¬(stateLeft (t.run limits r)).Began ((i + 1) :: path)) ∧
    (∀ n path q u i, Evaluation.Skips (evaluationAt limits (n + 1 - u.calls)) path q u i →
      ¬q.Began (i :: path) → ¬(stateLeft (evaluationAt limits (n + 1) path u q)).Began (i :: path)) ∧
    ∀ s es tail e i r', t = .block s es tail →
      each (evaluationAt limits (nestingLimit - 1)) [] 0 (es.take i) r = .error e r' →
        ¬(stateLeft (t.run limits r)).Began [i] := by
  have hwrites : r.journal.isSome = true := by
    rw [hr]
    rfl
  have hnone : ∀ path, ¬r.Began path := by
    rintro path ⟨notes, hnotes, hmem⟩
    cases hr.symm.trans hnotes
    cases hmem
  have habreast : Abreast r r := ⟨rfl, rfl, hwrites⟩
  refine ⟨fun path u h => ?_, fun path u hpath h => ?_, fun path s f args i hcall => ?_,
    fun n path q u i h hq => h.not_began hq, ?_⟩
  · have hpath : path ≠ [] := by
      rintro rfl
      exact h (evaluate_begins limits t hwrites)
    exact (((evaluate_follows limits t hpath _).alike r r habreast).resolve_left h).sameCourse
  · exact (((run_follows limits t hpath _).alike r r habreast).resolve_left h).sameCourse
  · exact ⟨evaluate_argument limits hcall (hnone _), run_argument limits hcall (hnone _)⟩
  · rintro s es tail e i r' rfl h
    rw [stateLeft_run, statements_error h]
    exact (each_not_began _ i es).of_error (hnone [i]) h

/-- Behind a left operand that is false even a loop without end makes no difference. -/
theorem unvisited_irrelevant_right_operand :
    ¬(stateLeft (evaluate { loop := none }
      (.binary .origin .and (.literal .origin (.bool false)) (.reference .origin "x"))
        ⟨[[]], none, some []⟩)).Began [1] ∧
      SameCourse (evaluate { loop := none }
        (.binary .origin .and (.literal .origin (.bool false)) (.reference .origin "x"))
          ⟨[[]], none, some []⟩)
        (evaluate { loop := none }
          (.binary .origin .and (.literal .origin (.bool false))
            (.loop .origin (.literal .origin .null)))
          ⟨[[]], none, some []⟩) := by
  have hunvisited : ¬(stateLeft (evaluate { loop := none }
      (.binary .origin .and (.literal .origin (.bool false)) (.reference .origin "x"))
        ⟨[[]], none, some []⟩)).Began [1] := by
    rintro ⟨notes, hnotes, hmem⟩
    obtain rfl : [.visit [0], .visit []] = notes := Option.some.inj hnotes
    revert hmem
    decide
  exact ⟨hunvisited, (unvisited_irrelevant { loop := none } _ rfl).1 [1] _ hunvisited⟩

end Tree

end Curly
