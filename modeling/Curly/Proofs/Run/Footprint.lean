import Curly.Proofs.Run.Parallel
import Curly.Proofs.Scope.Extension

/-!
# The footprint of evaluation

What the evaluation of a tree may change in the scopes around it, however it ends. The tree need not be
one that was read from a text: declarations may stand anywhere in it, and the bodies of loops may be
anything.

## Main definitions

* `Tree.Declares`: the names that a tree declares in the scope in which it is evaluated.
* `Tree.Targets`: the names that are declared or assigned to somewhere in a tree.
* `Frames`: steps that extend the scopes only.

## Main statements

* `Tree.evaluation_footprint`: what evaluation and running leave of the scopes.
-/

namespace Curly

open Run Evaluation

namespace Tree

/-- The name that a node declares or assigns to. -/
def target? : Tree → Option String
  | declaration _ n _ => some n
  | assignment _ n _ => some n
  | _ => none

/-- Something in the tree declares the name or assigns to it. -/
inductive Targets (name : String) : Tree → Prop where
  | root {t} (h : t.target? = some name) : Targets name t
  | child {t u} (hu : u ∈ t.children) (h : Targets name u) : Targets name t

/-- The tree is a block. -/
def IsBlock (t : Tree) : Prop := ∃ s es tail, t = block s es tail

/-- Something in the tree declares the name, and does not lie under a block. -/
inductive Declares (name : String) : Tree → Prop where
  | root {s e} : Declares name (.declaration s name e)
  | child {t u} (ht : ¬ t.IsBlock) (hu : u ∈ t.children) (h : Declares name u) : Declares name t

/-- The tree is a block, and one of its statements declares the name. -/
def DeclaresInside (name : String) (t : Tree) : Prop :=
  t.IsBlock ∧ ∃ u ∈ t.children, u.Declares name

end Tree

namespace Run

variable {D D' T T' : String → Prop} {α β : Type}

/-- However the step ends, the innermost scope may bind further names, all of them in `D`, and names in
`T` may have other values. -/
def Frames (D T : String → Prop) (m : RunM α) : Prop :=
  ∀ c : Chain, Triple (fun r => c.Extends D T r.scopes) m (fun _ r => c.Extends D T r.scopes)
    fun _ r => c.Extends D T r.scopes

namespace Frames

/-- It is enough to look at what becomes of the scopes in which the step begins. -/
theorem of_start {m : RunM α}
    (h : ∀ c : Chain, c ≠ [] → Triple (fun r => r.scopes = c) m
      (fun _ r => c.Extends D T r.scopes) fun _ r => c.Extends D T r.scopes) : Frames D T m := by
  intro c r hr
  have := h r.scopes hr.ne_nil r rfl
  split at this
  · exact hr.trans this
  · exact hr.trans this

theorem start {m : RunM α} (h : Frames D T m) (b : Bindings) (outer : Chain) :
    Triple (fun r => r.scopes = b :: outer) m (fun _ r => Chain.Extends D T (b :: outer) r.scopes)
      fun _ r => Chain.Extends D T (b :: outer) r.scopes := by
  refine (h (b :: outer)).strengthen fun r hr => ?_
  rw [hr]
  exact .refl ..

theorem mono {m : RunM α} (h : Frames D T m) (hD : ∀ n, D n → D' n) (hT : ∀ n, T n → T' n) :
    Frames D' T' m := by
  refine of_start fun c hc => ?_
  obtain ⟨b, outer, rfl⟩ := List.exists_cons_of_ne_nil hc
  exact (h.start b outer).consequence (fun _ h => h) (fun _ _ h => h.mono hD hT)
    fun _ _ h => h.mono hD hT

theorem bind {m : RunM α} {f : α → RunM β} (hm : Frames D T m) (hf : ∀ a, Frames D T (f a)) :
    Frames D T (m >>= f) := fun c => Triple.bind (hm c) fun a => hf a c

theorem pure (a : α) : Frames D T (Pure.pure a) := fun _ => Triple.pure fun _ h => h

theorem throw (e : RunFault) : Frames D T (MonadExcept.throw e : RunM α) :=
  fun _ => Triple.throw fun _ h => h

theorem fail (cause : RuntimeCause) (span : Span) : Frames D T (Run.fail cause span : RunM α) :=
  fun _ => Triple.fail fun _ h => h

theorem note (n : Note) : Frames D T (Run.note n) := fun _ => Triple.note fun _ h => h

theorem setCurrent (t : Tree) : Frames D T (Run.setCurrent t) :=
  fun _ => Triple.setCurrent fun _ h => h

theorem boundedAt {m : RunM α} (h : Frames D T m) (span : Span) :
    Frames D T (Run.boundedAt span m) :=
  fun c => Triple.boundedAt (h c) (fun _ h => h) fun _ _ _ h => h

/-- What is declared inside a scope is gone with the scope. -/
theorem inside {m : RunM α} (h : Frames D T m) : Frames D' T (Run.inside m) := by
  refine of_start fun c hc => ?_
  refine Triple.inside (h.start [] c) (fun r hr => ?_) (fun _ r hr => ?_) fun _ r hr => ?_
  · exact congrArg Chain.push hr
  · exact hr.pop hc
  · exact hr.pop hc

theorem steady (c : Chain) :
    Steady (fun r => c.Extends D T r.scopes) fun _ r => c.Extends D T r.scopes where
  setCurrent := fun _ _ h => h
  fail := fun _ _ _ _ h => h
  noArithmetic := fun _ _ h => h

theorem rounds {limits : Limits} {span : Span} {body : RunM Value} (h : Frames D T body)
    (left done : Nat) : Frames D T (Evaluation.rounds limits span body left done) :=
  fun c => Triple.rounds (fun _ _ h => h) (h c) (fun _ _ _ _ h => h) (fun _ _ _ _ h => h)
    (fun _ _ h => h) left done

end Frames

end Run

namespace Evaluation

variable {D T : String → Prop} {limits : Limits} {below : Evaluation} {path : List Nat}

theorem each_frames {es : List Tree} (h : ∀ p, ∀ e ∈ es, Frames D T (below p e)) (index : Nat) :
    Frames D T (each below path index es) := by
  induction es generalizing index with
  | nil => exact .pure _
  | cons e es ih =>
    refine (h _ e (List.mem_cons_self ..)).bind fun _ => ?_
    exact ih (fun p e he => h p e (List.mem_cons_of_mem _ he)) (index + 1)

theorem statements_frames {es : List Tree} {tail : Option Tree}
    (h : ∀ p, ∀ e ∈ es ++ tail.toList, Frames D T (below p e)) :
    Frames D T (statements below path es tail) := by
  refine (each_frames (fun p e he => h p e (List.mem_append_left _ he)) 0).bind fun _ => ?_
  cases tail with
  | none => exact .pure _
  | some t => exact h _ t (List.mem_append_right _ (List.mem_singleton_self t))

theorem binary_frames {t a b : Tree} {op : BinaryOperator} (ha : ∀ p, Frames D T (below p a))
    (hb : ∀ p, Frames D T (below p b)) : Frames D T (binary below path t op a b) :=
  fun c => (Frames.steady c).binary (ha _ c) (hb _ c)

theorem reference_frames (span : Span) (name : String) : Frames D T (reference path span name) := by
  intro c
  refine Triple.bind (Q := fun _ r => c.Extends D T r.scopes) (Triple.scopesFor fun _ h => h)
    fun found => ?_
  split
  · exact Frames.pure _ c
  · exact Frames.fail _ _ c

theorem declare_frames {name : String} (hD : D name) (hT : T name) (v : Value) :
    Frames D T (declare name v) := by
  intro c
  have store : Triple (fun r => c.Extends D T r.scopes) (do
      modify fun r => { r with scopes := r.scopes.declare name v }
      return Value.null) (fun _ r => c.Extends D T r.scopes) fun _ r => c.Extends D T r.scopes :=
    Triple.bind (Triple.update fun _ hr => hr.declare hD hT v) fun _ => Frames.pure _ c
  refine Triple.bind (Q := fun _ r => c.Extends D T r.scopes) (Triple.read fun _ h => h)
    fun _ => ?_
  split
  · exact Triple.bind (Frames.note _ c) fun _ => store
  · exact store

/-- The owner of the name is found before the value is known. The evaluation of the value may add names
to the innermost scope, but it moves no scope, so that the owner is where it was. -/
theorem assignment_frames {span : Span} {name : String} {e : Tree} (hT : T name)
    (he : ∀ p, Frames D T (below p e)) : Frames D T (assignment below path span name e) := by
  refine Frames.of_start fun c hc => ?_
  obtain ⟨b, outer, rfl⟩ := List.exists_cons_of_ne_nil hc
  refine Triple.bind (Q := fun found r => found = b :: outer ∧ r.scopes = b :: outer)
    (Triple.scopesFor fun _ h => ⟨h, h⟩) fun found => Triple.assume (fun _ h => h.1) fun hfound => ?_
  subst hfound
  refine Triple.strengthen ?_ fun _ h => h.2
  split
  · refine Triple.fail fun r hr => ?_
    rw [hr]
    exact .refl ..
  · next i hi =>
    refine Triple.bind ((he _).start b outer) fun v => ?_
    exact Triple.bind (Triple.update fun r hr => hr.assign hT hi v) fun _ => Triple.pure fun _ h => h

theorem block_frames {es : List Tree} {tail : Option Tree} {D' : String → Prop}
    (h : ∀ p, ∀ e ∈ es ++ tail.toList, Frames D T (below p e)) :
    Frames D' T (block below path es tail) := by
  intro c
  refine Triple.bind (Q := fun _ r => c.Extends D' T r.scopes) (Triple.read fun _ h => h)
    fun _ => ?_
  exact Triple.bind (Frames.note _ c) fun _ => (statements_frames h).inside c

end Evaluation

/-- What the evaluation of a tree, with any room for calls, may change. -/
theorem evaluationAt_frames (limits : Limits) (n : Nat) (path : List Nat) (t : Tree) :
    Frames t.Declares t.Targets (evaluationAt limits n path t) := by
  refine evaluationAt_induction (motive := fun _ t m => Frames t.Declares t.Targets m)
    (fun _ _ => .throw _) (fun below path t ih => ?_) n path t
  -- A node that is no block declares what the nodes below it declare.
  have child : ∀ {u}, ¬ t.IsBlock → u ∈ t.children → ∀ p,
      Frames t.Declares t.Targets (below p u) :=
    fun ht hu p => (ih p _).mono (fun _ h => .child ht hu h) fun _ h => .child hu h
  refine (Frames.note _).bind fun _ => (Frames.setCurrent t).bind fun _ => ?_
  cases t with
  | literal => exact .pure _
  | reference => exact reference_frames _ _
  | nameless => exact .fail _ _
  | declaration =>
    exact (child (nofun) (List.mem_singleton_self _) _).bind fun v =>
      declare_frames .root (.root rfl) v
  | assignment =>
    exact assignment_frames (.root rfl) (child (nofun) (List.mem_singleton_self _))
  | binary =>
    exact binary_frames (child (nofun) (List.mem_cons_self ..))
      (child (nofun) (List.mem_cons_of_mem _ (List.mem_singleton_self _)))
  | unary =>
    exact (child (nofun) (List.mem_singleton_self _) _).bind fun v => fun c =>
      (Frames.steady c).applyUnary _ _ v
  | call => exact (child (nofun) (List.mem_cons_self ..) _).bind fun _ => .fail _ _
  | block s es tail =>
    refine block_frames (D := fun name => ∃ u ∈ es ++ tail.toList, u.Declares name)
      fun p e he => ?_
    exact (ih p e).mono (fun _ h => ⟨e, he, h⟩) fun _ h => .child he h
  | doBlock => exact child (nofun) (List.mem_singleton_self _) _
  | loop => exact (child (nofun) (List.mem_singleton_self _) _).rounds _ _
  | bare => exact .fail _ _

/-- What a step leaves of the scopes, however it ends. -/
theorem Run.Frames.scopesLeft {α : Type} {D T : String → Prop} {m : RunM α} (h : Frames D T m)
    (b : Bindings) (outer : Chain) (current : Option Tree) (journal : Option (List Note)) :
    Chain.Extends D T (b :: outer) (scopesLeft (m ⟨b :: outer, current, journal⟩)) := by
  have hends := h.start b outer ⟨b :: outer, current, journal⟩ rfl
  split at hends
  · next heq => rwa [heq]
  · next heq => rwa [heq]

namespace Tree

/-- What running the statements of a block in the innermost scope may change. -/
theorem run_frames (limits : Limits) (t : Tree) :
    Frames (fun name => t.DeclaresInside name) t.Targets (t.run limits) := by
  refine Frames.boundedAt ?_ _
  cases t with
  | block s es tail =>
    refine statements_frames fun p e he => ?_
    exact (evaluationAt_frames limits _ p e).mono
      (fun _ h => ⟨⟨s, es, tail, rfl⟩, e, he, h⟩) fun _ h => .child he h
  | _ => exact .throw _

/-- **The footprint of evaluation.** However the evaluation of a tree ends, there are as many scopes
afterwards as before. The scopes around the innermost one bind the names they bound, in their order. The
innermost one binds the names it bound, in their order, and behind them only names that are declared in
the tree without a block around the declaration. In none of them has a name another value that is nowhere
declared or assigned to in the tree. If the tree is run and not evaluated, the same is true with the
declarations among the statements of the block at its root. -/
theorem evaluation_footprint (limits : Limits) (t : Tree) (b : Bindings) (outer : Chain)
    (current : Option Tree) (journal : Option (List Note)) :
    (∃ (b' : Bindings) (outer' : Chain) (new : List String),
      scopesLeft (t.evaluate limits ⟨b :: outer, current, journal⟩) = b' :: outer' ∧
      outer'.layout = outer.layout ∧
      b'.names = b.names ++ new ∧ (b.names.Nodup → b'.names.Nodup) ∧ (∀ n ∈ new, t.Declares n) ∧
      ∀ n, ¬ t.Targets n → (b' :: outer').map (·.find? n) = (b :: outer).map (·.find? n)) ∧
    ∃ (b' : Bindings) (outer' : Chain) (new : List String),
      scopesLeft (t.run limits ⟨b :: outer, current, journal⟩) = b' :: outer' ∧
      outer'.layout = outer.layout ∧
      b'.names = b.names ++ new ∧ (b.names.Nodup → b'.names.Nodup) ∧
      (∀ n ∈ new, t.DeclaresInside n) ∧
      ∀ n, ¬ t.Targets n → (b' :: outer').map (·.find? n) = (b :: outer).map (·.find? n) :=
  ⟨(((evaluationAt_frames limits _ [] t).boundedAt t.span).scopesLeft
      b outer current journal).exists_layout,
    ((run_frames limits t).scopesLeft b outer current journal).exists_layout⟩

end Tree

end Curly
