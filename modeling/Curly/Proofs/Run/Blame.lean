import Curly.Proofs.Run.Unvisited

/-!
# The nodes that errors are about

An error of the language is about a node that was begun in the run, of a form that fits the error, and the
node that was current last is this one or lies below it. The same is true of the loop whose bound cannot
be written, which is all that can go wrong in the evaluator itself.

## Main definitions

* `Tree.Fails`: the forms of nodes, with the errors that are about them.
* `Run.CurrentWithin`: the current node is a certain one or lies below it.
* `RunFault.Blames`: the error is about a node of a tree that is at or below a certain one.

## Main statements

* `evaluationAt_blames`: evaluation ends at or below the node that it began with, and so do its errors.
* `Tree.errors_blame_nodes`: the errors of evaluation and of runs.
-/

namespace Curly

open Run Evaluation

/-- The operators whose operands have to be numbers. -/
def BinaryOperator.isNumeric : BinaryOperator → Bool
  | equal | notEqual | and | or => false
  | _ => true

/-- The operators whose operands have to be numbers compute with them. -/
theorem BinaryOperator.arithmetic?_ne_none {op : BinaryOperator} (h : op.isNumeric = true) :
    op.arithmetic? ≠ none := by
  cases op with
  | equal | notEqual | and | or => cases h
  | _ => exact Option.some_ne_none _

/-- `N.Fails cause span`: an error with this cause is about the node `N`, and marks `span`. Of an
assignment only the length of the name is marked. -/
inductive Tree.Fails : Tree → RuntimeCause → Span → Prop where
  | reference {s n} : Fails (.reference s n) (.undefinedVariable n) s
  | nameless {s} : Fails (.nameless s) (.undefinedVariable unknownName) s
  | assignment {s n e} : Fails (.assignment s n e) (.undefinedVariable n) (.ofLength s.start n.length)
  | call {s f args} : Fails (.call s f args) .unsupportedCall s
  | loop {s b} (limit : Int) : Fails (.loop s b) (.loopLimit limit) s
  | notNumbers {s op a b k k'} (hop : op.isNumeric = true)
      (hkinds : k ≠ ValueKind.number ∨ k' ≠ ValueKind.number) :
      Fails (.binary s op a b) (.notNumbers op k k') s
  | notNegatable {s a k} (hkind : k ≠ ValueKind.number) :
      Fails (.unary s .negate a) (.notNegatable k) s
  | division {s op a b} (hop : op = .divide ∨ op = .modulo) :
      Fails (.binary s op a b) .divisionByZero s
  | bare {s} : Fails (.bare s) .meaningless s

namespace Run

/-- The current node is the one at a path in a tree, or one below it. -/
def CurrentWithin (T : Tree) (path : List Nat) (r : Run) : Prop :=
  ∃ path' C, path <:+ path' ∧ T.at? path' = some C ∧ r.current = some C

/-- The run is busy at or below the node at a path, which it has begun as far as this is recorded. -/
def Busy (recorded : Prop) (T : Tree) (path : List Nat) (r : Run) : Prop :=
  (recorded → r.Began path) ∧ r.CurrentWithin T path

end Run

/-- An error of the language is about a node at or below the one at a path, and the run is busy with this
node when it fails. If it fails over the message that the bound of a loop has been reached, it is busy with
this loop. No operator lacks its arithmetic. -/
def RunFault.Blames (limits : Limits) (recorded : Prop) (T : Tree) (path : List Nat) :
    RunFault → Run → Prop
  | .error ⟨cause, span⟩, r => ∃ path' N, path <:+ path' ∧ T.at? path' = some N ∧
      N.Fails cause span ∧ r.Busy recorded T path'
  | .unwritable limit, r => ∃ path' s b, path <:+ path' ∧ T.at? path' = some (.loop s b) ∧
      limits.loop = some limit ∧ Numeral.isWritable limit = false ∧ r.Busy recorded T path'
  | .noArithmetic _, _ => False
  | _, _ => True

section

variable {limits : Limits} {recorded : Prop} {T : Tree} {path path' : List Nat} {r r' : Run}
  {e : RunFault}

theorem Run.CurrentWithin.above (h : r.CurrentWithin T path') (hpath : path <:+ path') :
    r.CurrentWithin T path := by
  obtain ⟨q, C, hq, hC, hcurrent⟩ := h
  exact ⟨q, C, hpath.trans hq, hC, hcurrent⟩

theorem Run.Busy.congr (h : r.Busy recorded T path) (hcurrent : r'.current = r.current)
    (hjournal : r'.journal = r.journal) : r'.Busy recorded T path := by
  obtain ⟨hbegan, q, C, hq, hC, hnode⟩ := h
  exact ⟨fun hrec => (hbegan hrec).of_journal hjournal, q, C, hq, hC, hcurrent.trans hnode⟩

theorem Run.Busy.note (h : r.Busy recorded T path) (n : Note) :
    Busy recorded T path { r with journal := r.journal.map (n :: ·) } :=
  ⟨fun hrec => began_note_iff.2 (.inr (h.1 hrec)), h.2⟩

theorem RunFault.Blames.above (h : e.Blames limits recorded T path' r) (hpath : path <:+ path') :
    e.Blames limits recorded T path r := by
  cases e with
  | error e =>
    obtain ⟨q, N, hq, hN⟩ := h
    exact ⟨q, N, hpath.trans hq, hN⟩
  | unwritable limit =>
    obtain ⟨q, s, b, hq, hloop⟩ := h
    exact ⟨q, s, b, hpath.trans hq, hloop⟩
  | noArithmetic => exact h
  | _ => trivial

theorem RunFault.Blames.congr (h : e.Blames limits recorded T path r)
    (hcurrent : r'.current = r.current) (hjournal : r'.journal = r.journal) :
    e.Blames limits recorded T path r' := by
  cases e with
  | error e =>
    obtain ⟨q, N, hq, hN, hfails, hbusy⟩ := h
    exact ⟨q, N, hq, hN, hfails, hbusy.congr hcurrent hjournal⟩
  | unwritable limit =>
    obtain ⟨q, s, b, hq, hloop, hl, hw, hbusy⟩ := h
    exact ⟨q, s, b, hq, hloop, hl, hw, hbusy.congr hcurrent hjournal⟩
  | noArithmetic => exact h
  | _ => trivial

end

namespace Run

variable {limits : Limits} {recorded : Prop} {T : Tree} {path : List Nat} {α β : Type}

/-- The step is taken at or below the node at a path, and so is the node that its error is about. -/
def Stays (limits : Limits) (recorded : Prop) (T : Tree) (path : List Nat) (m : RunM α) : Prop :=
  Triple (Busy recorded T path) m (fun _ => Busy recorded T path)
    (RunFault.Blames limits recorded T path)

namespace Stays

theorem pure (a : α) : Stays limits recorded T path (Pure.pure a) := Triple.pure fun _ h => h

theorem bind {m : RunM α} {f : α → RunM β} (hm : Stays limits recorded T path m)
    (hf : ∀ a, Stays limits recorded T path (f a)) : Stays limits recorded T path (m >>= f) :=
  Triple.bind hm hf

/-- The node at the path fails itself. -/
theorem fail {N : Tree} {cause : RuntimeCause} {span : Span} (hN : T.at? path = some N)
    (h : N.Fails cause span) : Stays limits recorded T path (Run.fail cause span : RunM α) :=
  Triple.fail fun _ hr => ⟨path, N, List.suffix_refl path, hN, h, hr⟩

theorem note (n : Note) : Stays limits recorded T path (Run.note n) :=
  Triple.note fun _ h => h.note n

theorem setCurrent {t : Tree} (ht : T.at? path = some t) :
    Stays limits recorded T path (Run.setCurrent t) :=
  Triple.setCurrent fun _ h => ⟨h.1, path, t, List.suffix_refl path, ht, rfl⟩

/-- Bindings may change in any way. -/
theorem store (f : Chain → Chain) :
    Stays limits recorded T path (modify fun r => { r with scopes := f r.scopes } : RunM PUnit) :=
  Triple.update fun _ h => h.congr rfl rfl

theorem inside {m : RunM α} (h : Stays limits recorded T path m) :
    Stays limits recorded T path (Run.inside m) :=
  Triple.inside h (fun _ hr => hr.congr rfl rfl) (fun _ _ hr => hr.congr rfl rfl)
    fun _ _ he => he.congr rfl rfl

end Stays

end Run

namespace Evaluation

variable {recorded : Prop} {T t : Tree} {path : List Nat} {limits : Limits} {below : Evaluation}

/-- Division by zero is about the node, and no numeric operator lacks its arithmetic. -/
theorem applyToNumbers_stays {s : Span} {op : BinaryOperator} {a b : Tree}
    (ht : T.at? path = some (.binary s op a b)) (hop : op.isNumeric = true) (x y : Float) :
    Stays limits recorded T path (applyToNumbers (.binary s op a b) op x y) := by
  unfold applyToNumbers
  split
  · refine .fail ht (.division ?_)
    cases op <;> simp_all [BinaryOperator.divides]
  · split
    · exact .pure _
    · refine (Stays.setCurrent ht).bind fun _ => ?_
      split
      · exact .pure _
      · next hmissing => exact absurd hmissing (BinaryOperator.arithmetic?_ne_none hop)

theorem applyBinary_stays {s : Span} {op : BinaryOperator} {a b : Tree}
    (ht : T.at? path = some (.binary s op a b)) (hop : op ≠ .and ∧ op ≠ .or) (v w : Value) :
    Stays limits recorded T path (applyBinary (.binary s op a b) op v w) := by
  unfold applyBinary
  split
  · exact .pure _
  · exact .pure _
  · next hequal hnotEqual =>
    have hnumeric : op.isNumeric = true := by
      cases op <;> first | rfl | simp_all
    split
    · exact applyToNumbers_stays ht hnumeric _ _
    · next hnumbers =>
      refine .fail ht (.notNumbers hnumeric ?_)
      cases v <;> cases w <;> simp_all [Value.kind]

theorem binary_stays {s : Span} {op : BinaryOperator} {a b : Tree}
    (ht : T.at? path = some (.binary s op a b)) (ha : Stays limits recorded T path (below (0 :: path) a))
    (hb : Stays limits recorded T path (below (1 :: path) b)) :
    Stays limits recorded T path (binary below path (.binary s op a b) op a b) := by
  refine ha.bind fun v => ?_
  split
  · split
    · exact hb.bind fun _ => .pure _
    · exact .pure _
  · split
    · exact .pure _
    · exact hb.bind fun _ => .pure _
  · next hand hor => exact hb.bind fun w => applyBinary_stays ht ⟨hand, hor⟩ v w

theorem applyUnary_stays {s : Span} {op : UnaryOperator} {a : Tree}
    (ht : T.at? path = some (.unary s op a)) (v : Value) :
    Stays limits recorded T path (applyUnary s op v) := by
  unfold applyUnary
  split
  · exact .pure _
  · split
    · exact .pure _
    · next hnumber =>
      refine .fail ht (.notNegatable ?_)
      cases v <;> simp_all [Value.kind]

theorem reference_stays {s : Span} {name : String} (ht : T.at? path = some (.reference s name)) :
    Stays limits recorded T path (reference path s name) := by
  refine Triple.bind (Q := fun _ => Busy recorded T path) (Triple.scopesFor fun _ h => h.note _)
    fun c => ?_
  split
  · exact Stays.pure _
  · exact Stays.fail ht .reference

theorem declare_stays (name : String) (v : Value) : Stays limits recorded T path (declare name v) := by
  refine Triple.bind (Q := fun _ => Busy recorded T path) (Triple.read fun _ h => h) fun r => ?_
  split
  · exact (Stays.note _).bind fun _ => (Stays.store _).bind fun _ => .pure _
  · exact (Stays.store _).bind fun _ => .pure _

theorem assignment_stays {s : Span} {name : String} {e : Tree}
    (ht : T.at? path = some (.assignment s name e))
    (he : Stays limits recorded T path (below (0 :: path) e)) :
    Stays limits recorded T path (assignment below path s name e) := by
  refine Triple.bind (Q := fun _ => Busy recorded T path) (Triple.scopesFor fun _ h => h.note _)
    fun c => ?_
  split
  · exact Stays.fail ht .assignment
  · exact he.bind fun v => (Stays.store _).bind fun _ => .pure v

/-- What every statement leaves as it finds it, a block does. -/
theorem statements_triple {I : Run → Prop} {E : RunFault → Run → Prop} {s : Span} {es : List Tree}
    {tail : Option Tree} (hbelow : ∀ i u, (Tree.block s es tail).children[i]? = some u →
      Triple I (below (i :: path) u) (fun _ => I) E) :
    Triple I (statements below path es tail) (fun _ => I) E := by
  have hkept : Triple I (statements below path es tail) (Kept (fun _ => True) I) E :=
    statements_held trivial fun i u hu => (hbelow i u hu).weaken fun _ _ h => ⟨trivial, h⟩
  exact hkept.weaken fun _ _ h => h.2

theorem node_stays (ht : T.at? path = some t)
    (hbelow : ∀ i u, t.children[i]? = some u → Stays limits recorded T path (below (i :: path) u)) :
    Triple (fun r => recorded → r.journal.isSome = true) (node limits below path t)
      (fun _ => Busy recorded T path) (RunFault.Blames limits recorded T path) := by
  refine Triple.bind (Q := fun _ r => recorded → r.Began path)
    (Triple.note fun r hr hrec => began_note_iff.2 (.inl ⟨hr hrec, rfl⟩)) fun _ => ?_
  refine Triple.bind (Q := fun _ => Busy recorded T path)
    (Triple.setCurrent fun r hr => ⟨hr, path, t, List.suffix_refl path, ht, rfl⟩) fun _ => ?_
  cases t with
  | literal => exact Stays.pure _
  | reference => exact reference_stays ht
  | nameless => exact Stays.fail ht .nameless
  | declaration s name e => exact (hbelow 0 e rfl).bind fun v => declare_stays name v
  | assignment s name e => exact assignment_stays ht (hbelow 0 e rfl)
  | binary s op a b => exact binary_stays ht (hbelow 0 a rfl) (hbelow 1 b rfl)
  | unary s op a => exact (hbelow 0 a rfl).bind fun v => applyUnary_stays ht v
  | call s f args => exact (hbelow 0 f rfl).bind fun _ => .fail ht .call
  | block s es tail =>
    refine Triple.bind (Q := fun _ => Busy recorded T path) (Triple.read fun _ h => h) fun r => ?_
    exact (Stays.note _).bind fun _ => Stays.inside (statements_triple hbelow)
  | doBlock s b => exact hbelow 0 b rfl
  | loop s b =>
    refine Triple.rounds (fun n r hr => hr.note _) (hbelow 0 b rfl) (fun limit r _ _ hr => ?_)
      (fun limit r hl hw hr => ?_) (fun _ _ _ => trivial) _ _
    · exact ⟨path, _, List.suffix_refl path, ht, .loop limit, hr⟩
    · exact ⟨path, s, b, List.suffix_refl path, ht, hl, hw, hr⟩
  | bare => exact Stays.fail ht .bare

end Evaluation

section

variable {recorded : Prop} {T u : Tree} {path : List Nat}

/-- What is recorded of a node stays recorded. -/
theorem evaluationAt_recorded (recorded : Prop) (limits : Limits) (n : Nat) {hole path : List Nat}
    (t : Tree) :
    Triple (fun r => recorded → r.Began hole) (evaluationAt limits n path t)
      (fun _ r => recorded → r.Began hole) fun _ r => recorded → r.Began hole := by
  by_cases hrec : recorded
  · exact (evaluationAt_began limits n path t).consequence (fun _ h => h hrec)
      (fun _ _ h _ => h.2) fun _ _ h _ => h
  · exact (Triple.any _).consequence (fun _ _ => trivial) (fun _ _ _ h => absurd h hrec)
      fun _ _ _ h => absurd h hrec

/-- Evaluation ends at or below the node that it began with, and the node that an error is about is there
as well. -/
theorem evaluationAt_blames (recorded : Prop) (limits : Limits) (n : Nat) (hu : T.at? path = some u) :
    Triple (fun r => recorded → r.journal.isSome = true) (evaluationAt limits n path u)
      (fun _ => Busy recorded T path) (RunFault.Blames limits recorded T path) := by
  -- What is recorded below is known of evaluation only, so that the induction is on the room itself.
  induction n using Nat.strongRecOn generalizing path u with
  | ind n ih =>
    obtain _ | n := n
    · exact Triple.throw fun _ _ => trivial
    rw [evaluationAt_succ]
    refine node_stays hu fun i v hv => ?_
    have hchild := ih _ (u.sub_calls_lt n) ((Tree.at?_cons hu i).trans hv)
    have hpath : path <:+ i :: path := List.suffix_cons i path
    have hbegan : Triple (fun r => recorded → r.Began path)
        (evaluationAt limits (n + 1 - u.calls) (i :: path) v)
        (fun _ r => recorded → r.Began path) fun _ r => recorded → r.Began path :=
      evaluationAt_recorded recorded limits _ v
    apply (hchild.and hbegan).consequence
    · intro r hr
      refine ⟨fun hrec => ?_, hr.1⟩
      obtain ⟨notes, hnotes, -⟩ := hr.1 hrec
      rw [hnotes]
      rfl
    · intro _ r hr
      exact ⟨hr.2, hr.1.2.above hpath⟩
    · intro e r hr
      exact hr.1.above hpath

end

namespace Tree

variable {recorded : Prop} {T : Tree}

theorem evaluate_blames (recorded : Prop) (limits : Limits) (T : Tree) :
    Triple (fun r => recorded → r.journal.isSome = true) (T.evaluate limits)
      (fun _ => Busy recorded T [])
      fun e r => e = .error ⟨.nestedTooDeeply, T.span⟩ ∨ e.Blames limits recorded T [] r :=
  Triple.boundedAt (evaluationAt_blames recorded limits _ (at?_nil T))
    (fun _ _ => .inl rfl) fun _ _ _ h => .inr h

theorem run_blames (recorded : Prop) (limits : Limits) (T : Tree) :
    Triple (fun r => recorded → r.journal.isSome = true) (T.run limits) (fun _ _ => True)
      fun e r => e = .error ⟨.nestedTooDeeply, T.span⟩ ∨ e.Blames limits recorded T [] r := by
  refine Triple.boundedAt (E := RunFault.Blames limits recorded T []) ?_ (fun _ _ => .inl rfl)
    fun _ _ _ h => .inr h
  cases T with
  | block s es tail =>
    refine (statements_triple (s := s) fun i u hu => ?_).weaken fun _ _ _ => trivial
    have hu' := (at?_cons (at?_nil (Tree.block s es tail)) i).trans hu
    have hchild := evaluationAt_blames recorded limits (nestingLimit - 1) hu'
    refine hchild.consequence (fun _ h => h) ?_ fun e r he => he.above (List.nil_suffix)
    intro _ r hr hrec
    obtain ⟨notes, hnotes, -⟩ := hr.1 hrec
    rw [hnotes]
    rfl
  | _ => exact Triple.throw fun _ _ => trivial

/-- The fault of evaluation or of a run blames a node, or it is nesting that is too deep. -/
theorem ends_blame {limits : Limits} {scopes : Chain} {current : Option Tree}
    {journal : Option (List Note)} {e : RunFault} {r' : Run}
    (h : T.evaluate limits ⟨scopes, current, journal⟩ = .error e r' ∨
      T.run limits ⟨scopes, current, journal⟩ = .error e r') :
    e = .error ⟨.nestedTooDeeply, T.span⟩ ∨ e.Blames limits (journal = some []) T [] r' := by
  have hstart : journal = some [] →
      (⟨scopes, current, journal⟩ : Run).journal.isSome = true := by
    rintro rfl
    rfl
  rcases h with h | h
  · exact (evaluate_blames _ limits T).of_error hstart h
  · exact (run_blames _ limits T).of_error hstart h

end Tree

end Curly
