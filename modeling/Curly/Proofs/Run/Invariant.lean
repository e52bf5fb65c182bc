import Curly.Proofs.Run.Triple

/-!
# Invariants of evaluation

What every primitive of a run keeps, the evaluation of a node keeps, provided that the evaluation of the
nodes below it does. The faults that a node raises by itself are listed once, by the form of the node.

## Main definitions

* `Tree.Raises`: the errors that a node raises by itself, loops aside.
* `Run.Invariant`: a property of states that every primitive of a run keeps.

## Main statements

* `Evaluation.node_kept`: a node keeps what the nodes below it keep.
* `Evaluation.statements_kept`: the same for the statements of a block.
-/

namespace Curly

open Run

/-- The errors that the evaluation of a node raises by itself, and where. A loop that is cut short raises
one more. -/
inductive Tree.Raises : Tree → RuntimeCause → Span → Prop where
  | reference {s name} : Raises (.reference s name) (.undefinedVariable name) s
  | nameless {s} : Raises (.nameless s) (.undefinedVariable unknownName) s
  | assignment {s name e} :
      Raises (.assignment s name e) (.undefinedVariable name) (.ofLength s.start name.length)
  | division {s op a b} : Raises (.binary s op a b) .divisionByZero s
  | notNumbers {s op a b} (k k' : ValueKind) : Raises (.binary s op a b) (.notNumbers op k k') s
  | notNegatable {s op a} (k : ValueKind) : Raises (.unary s op a) (.notNegatable k) s
  | call {s f args} : Raises (.call s f args) .unsupportedCall s
  | bare {s} : Raises (.bare s) .meaningless s

namespace Run

variable {V : Value → Prop} {I : Run → Prop} {E : RunFault → Run → Prop}

/-- What holds of a value and of the state in which it is found. -/
def Kept (V : Value → Prop) (I : Run → Prop) (v : Value) (r : Run) : Prop := V v ∧ I r

/-- The property `I` of states is kept by the primitives of a run while all values in play have the
property `V`, and what `E` says of a fault survives the end of a scope. That a node is begun is left to
those who use the invariant. -/
structure Invariant (V : Value → Prop) (I : Run → Prop) (E : RunFault → Run → Prop) : Prop where
  note : ∀ n r, (∀ path, n ≠ .visit path) → I r → I { r with journal := r.journal.map (n :: ·) }
  setCurrent : ∀ t r, I r → I { r with current := some t }
  push : ∀ r, I r → I { r with scopes := r.scopes.push }
  pop : ∀ r, I r → I { r with scopes := r.scopes.pop }
  popFault : ∀ e r, E e r → E e { r with scopes := r.scopes.pop }
  declare : ∀ r name v, I r → V v → I { r with scopes := r.scopes.declare name v }
  assign : ∀ r i name v, I r → V v → I { r with scopes := r.scopes.assign i name v }
  find : ∀ r name v, I r → r.scopes.find? name = some v → V v
  null : V .null
  bool : ∀ b, V (.bool b)
  number : ∀ x, V (.number x)

namespace Invariant

/-- A property of the journal is kept by all primitives if the notes keep it. -/
theorem ofJournal
    (note : ∀ n r, (∀ path, n ≠ .visit path) → I r →
      I { r with journal := r.journal.map (n :: ·) })
    (hI : ∀ {r r' : Run}, I r → r'.journal = r.journal → I r')
    (popFault : ∀ e r, E e r → E e { r with scopes := r.scopes.pop }) :
    Invariant (fun _ => True) I E where
  note := note
  setCurrent := fun _ _ hr => hI hr rfl
  push := fun _ hr => hI hr rfl
  pop := fun _ hr => hI hr rfl
  popFault := popFault
  declare := fun _ _ _ hr _ => hI hr rfl
  assign := fun _ _ _ _ hr _ => hI hr rfl
  find := fun _ _ _ _ _ => True.intro
  null := True.intro
  bool := fun _ => True.intro
  number := fun _ => True.intro

theorem noted (h : Invariant V I E) {n : Note} (hn : ∀ path, n ≠ .visit path) :
    Triple I (Run.note n) (fun _ => I) E := Triple.note fun r => h.note n r hn

theorem current (h : Invariant V I E) (t : Tree) : Triple I (Run.setCurrent t) (fun _ => I) E :=
  Triple.setCurrent (h.setCurrent t)

end Invariant

theorem Kept.pure {v : Value} (hv : V v) : Triple I (Pure.pure v) (Kept V I) E :=
  Triple.pure fun _ hr => ⟨hv, hr⟩

/-- The property of a value may be used in what is done with it. -/
theorem Kept.bind {α : Type} {m : RunM Value} {f : Value → RunM α} {Q : α → Run → Prop}
    (hm : Triple I m (Kept V I) E) (hf : ∀ v, V v → Triple I (f v) Q E) : Triple I (m >>= f) Q E := by
  refine Triple.bind hm fun v => ?_
  refine Triple.assume (fun _ hr => hr.1) fun hv => ?_
  exact Triple.strengthen (hf v hv) fun _ hr => hr.2

end Run

namespace BinaryOperator

variable {V : Value → Prop}

/-- The operators that are looked up compute with numbers: comparisons of values of all kinds are settled
before, and so are conjunctions and disjunctions. They yield numbers and truth values. -/
theorem exists_arithmetic {op : BinaryOperator} (hequal : op ≠ .equal) (hnotEqual : op ≠ .notEqual)
    (hand : op ≠ .and) (hor : op ≠ .or) (hbool : ∀ b, V (.bool b)) (hnumber : ∀ x, V (.number x)) :
    ∃ f, op.arithmetic? = some f ∧ ∀ x y, V (f x y) := by
  cases op with
  | add | subtract | multiply | divide | modulo => exact ⟨_, rfl, fun _ _ => hnumber _⟩
  | greater | greaterEqual | lesser | lesserEqual => exact ⟨_, rfl, fun _ _ => hbool _⟩
  | equal => exact absurd rfl hequal
  | notEqual => exact absurd rfl hnotEqual
  | and => exact absurd rfl hand
  | or => exact absurd rfl hor

end BinaryOperator

namespace Evaluation

variable {V : Value → Prop} {I : Run → Prop} {E : RunFault → Run → Prop} {limits : Limits}
  {below : Evaluation} {path : List Nat}

theorem each_kept {es : List Tree} {index : Nat}
    (hes : ∀ i e, es[i]? = some e → Triple I (below ((index + i) :: path) e) (Kept V I) E) :
    Triple I (each below path index es) (fun _ => I) E := by
  induction es generalizing index with
  | nil => exact Triple.pure fun _ hr => hr
  | cons e es ih =>
    refine Kept.bind (hes 0 e rfl) fun _ _ => ih fun i e' he' => ?_
    have := hes (i + 1) e' he'
    rwa [show index + (i + 1) = index + 1 + i by omega] at this

/-- Statements keep what each of them keeps, whatever that is. -/
theorem statements_held (hnull : V .null) {s : Span} {es : List Tree} {tail : Option Tree}
    (hbelow : ∀ i u, (Tree.block s es tail).children[i]? = some u →
      Triple I (below (i :: path) u) (Kept V I) E) :
    Triple I (statements below path es tail) (Kept V I) E := by
  have hes : ∀ i e, es[i]? = some e → Triple I (below ((0 + i) :: path) e) (Kept V I) E := by
    intro i e he
    rw [Nat.zero_add]
    refine hbelow i e ?_
    show (es ++ tail.toList)[i]? = some e
    rw [List.getElem?_append_left (List.getElem?_eq_some_iff.1 he).1, he]
  refine Triple.bind (each_kept hes) fun _ => ?_
  cases tail with
  | none => exact Kept.pure hnull
  | some t =>
    refine hbelow es.length t ?_
    show (es ++ [t])[es.length]? = some t
    rw [List.getElem?_append_right (Nat.le_refl _), Nat.sub_self]
    rfl

/-- Statements keep what each of them keeps. -/
theorem statements_kept (h : Invariant V I E) {s : Span} {es : List Tree} {tail : Option Tree}
    (hbelow : ∀ i u, (Tree.block s es tail).children[i]? = some u →
      Triple I (below (i :: path) u) (Kept V I) E) :
    Triple I (statements below path es tail) (Kept V I) E :=
  statements_held h.null hbelow

theorem applyToNumbers_kept (h : Invariant V I E) {s : Span} {op : BinaryOperator} {a b : Tree}
    (hraises : ∀ cause span, (Tree.binary s op a b).Raises cause span →
      ∀ r, I r → E (.error ⟨cause, span⟩) r) {f : Float → Float → Value}
    (hf : op.arithmetic? = some f) (hvalue : ∀ x y, V (f x y)) (x y : Float) :
    Triple I (applyToNumbers (.binary s op a b) op x y) (Kept V I) E := by
  unfold applyToNumbers
  rw [hf]
  split
  · exact Triple.fail (hraises _ _ .division)
  · split
    · exact Kept.pure (h.number _)
    · exact Triple.bind (h.current _) fun _ => Kept.pure (hvalue x y)

theorem applyBinary_kept (h : Invariant V I E) {s : Span} {op : BinaryOperator} {a b : Tree}
    (hand : op ≠ .and) (hor : op ≠ .or)
    (hraises : ∀ cause span, (Tree.binary s op a b).Raises cause span →
      ∀ r, I r → E (.error ⟨cause, span⟩) r) (v w : Value) :
    Triple I (applyBinary (.binary s op a b) op v w) (Kept V I) E := by
  unfold applyBinary
  split
  · exact Kept.pure (h.bool _)
  · exact Kept.pure (h.bool _)
  · next hequal hnotEqual =>
    split
    · obtain ⟨f, hf, hvalue⟩ :=
        BinaryOperator.exists_arithmetic hequal hnotEqual hand hor h.bool h.number
      exact applyToNumbers_kept h hraises hf hvalue _ _
    · exact Triple.fail (hraises _ _ (.notNumbers _ _))

theorem binary_kept (h : Invariant V I E) {s : Span} {op : BinaryOperator} {a b : Tree}
    (ha : Triple I (below (0 :: path) a) (Kept V I) E)
    (hb : Triple I (below (1 :: path) b) (Kept V I) E)
    (hraises : ∀ cause span, (Tree.binary s op a b).Raises cause span →
      ∀ r, I r → E (.error ⟨cause, span⟩) r) :
    Triple I (binary below path (.binary s op a b) op a b) (Kept V I) E := by
  refine Kept.bind ha fun v _ => ?_
  split
  · split
    · exact Kept.bind hb fun w _ => Kept.pure (h.bool _)
    · exact Kept.pure (h.bool _)
  · split
    · exact Kept.pure (h.bool _)
    · exact Kept.bind hb fun w _ => Kept.pure (h.bool _)
  · next hand hor => exact Kept.bind hb fun w _ => applyBinary_kept h hand hor hraises v w

theorem applyUnary_kept (h : Invariant V I E) {s : Span} {op : UnaryOperator} {a : Tree}
    (hraises : ∀ cause span, (Tree.unary s op a).Raises cause span →
      ∀ r, I r → E (.error ⟨cause, span⟩) r) (v : Value) :
    Triple I (applyUnary s op v) (Kept V I) E := by
  unfold applyUnary
  split
  · exact Kept.pure (h.bool _)
  · split
    · exact Kept.pure (h.number _)
    · exact Triple.fail (hraises _ _ (.notNegatable _))

theorem reference_kept (h : Invariant V I E) {s : Span} {name : String}
    (hundefined : ∀ r, I r → E (.error ⟨.undefinedVariable name, s⟩) r) :
    Triple I (reference path s name) (Kept V I) E := by
  refine Triple.bind (Q := fun c r => (∀ v, c.find? name = some v → V v) ∧ I r)
    (Triple.scopesFor fun r hr => ⟨fun v => h.find r name v hr, ?_⟩) fun c => ?_
  · exact h.note _ r nofun hr
  · refine Triple.assume (fun _ hr => hr.1) fun hfind => ?_
    refine Triple.strengthen ?_ fun _ hr => hr.2
    split
    · next v hv => exact Kept.pure (hfind v hv)
    · exact Triple.fail hundefined

theorem declare_kept (h : Invariant V I E) (name : String) {v : Value} (hv : V v) :
    Triple I (declare name v) (Kept V I) E := by
  have store : Triple I (do
      modify fun r => { r with scopes := r.scopes.declare name v }
      return Value.null) (Kept V I) E :=
    Triple.bind (Triple.update fun r hr => h.declare r name v hr hv) fun _ => Kept.pure h.null
  refine Triple.bind (Q := fun _ => I) (Triple.read fun _ hr => hr) fun c => ?_
  split
  · exact Triple.bind (h.noted nofun) fun _ => store
  · exact store

theorem assignment_kept (h : Invariant V I E) {s : Span} {name : String} {e : Tree}
    (he : Triple I (below (0 :: path) e) (Kept V I) E)
    (hundefined : ∀ r, I r → E (.error ⟨.undefinedVariable name, .ofLength s.start name.length⟩) r) :
    Triple I (assignment below path s name e) (Kept V I) E := by
  refine Triple.bind (Q := fun _ => I)
    (Triple.scopesFor fun r => h.note _ r nofun) fun c => ?_
  split
  · exact Triple.fail hundefined
  · next i _ =>
    refine Kept.bind he fun v hv => ?_
    exact Triple.bind (Triple.update fun r hr => h.assign r i name v hr hv) fun _ => Kept.pure hv

/-- **Node rule**: the evaluation of a node keeps what the evaluation of the nodes below it keeps, if
this holds once the node is written down, and if the faults are covered that the node raises by
itself. -/
theorem node_kept (h : Invariant V I E) {P : Run → Prop} {t : Tree}
    (hvisit : ∀ r, P r → I { r with journal := r.journal.map (.visit path :: ·) })
    (hliteral : ∀ s v, t = .literal s v → V v)
    (hraises : ∀ cause span, t.Raises cause span → ∀ r, I r → E (.error ⟨cause, span⟩) r)
    (hloop : ∀ s body, t = .loop s body → Triple I (below (0 :: path) body) (Kept V I) E →
      Triple I (rounds limits s (below (0 :: path) body) (roundsAllowed limits) 0) (Kept V I) E)
    (hbelow : ∀ i u, t.children[i]? = some u → Triple I (below (i :: path) u) (Kept V I) E) :
    Triple P (node limits below path t) (Kept V I) E := by
  refine Triple.bind (Q := fun _ => I) (Triple.note hvisit) fun _ =>
    Triple.bind (h.current t) fun _ => ?_
  cases t with
  | literal s v => exact Kept.pure (hliteral s v rfl)
  | reference s name => exact reference_kept h (hraises _ _ .reference)
  | nameless s => exact Triple.fail (hraises _ _ .nameless)
  | declaration s name e => exact Kept.bind (hbelow 0 e rfl) fun v hv => declare_kept h name hv
  | assignment s name e => exact assignment_kept h (hbelow 0 e rfl) (hraises _ _ .assignment)
  | binary s op a b => exact binary_kept h (hbelow 0 a rfl) (hbelow 1 b rfl) hraises
  | unary s op a => exact Kept.bind (hbelow 0 a rfl) fun v _ => applyUnary_kept h hraises v
  | call s f args =>
    exact Kept.bind (hbelow 0 f rfl) fun _ _ => Triple.fail (hraises _ _ .call)
  | block s es tail =>
    refine Triple.bind (Q := fun _ => I) (Triple.read fun _ hr => hr) fun _ =>
      Triple.bind (h.noted nofun) fun _ => ?_
    exact Triple.inside (statements_kept h hbelow) h.push (fun _ r hr => ⟨hr.1, h.pop r hr.2⟩)
      h.popFault
  | doBlock s body => exact hbelow 0 body rfl
  | loop s body => exact hloop s body rfl (hbelow 0 body rfl)
  | bare s => exact Triple.fail (hraises _ _ .bare)

/-- A loop keeps what its body keeps, if the faults of a loop that is cut short are covered. -/
theorem rounds_kept (h : Invariant V I E) {s : Span} {body : RunM Value}
    (hlimit : ∀ limit r, limits.loop = some limit → Numeral.isWritable limit = true → I r →
      E (.error ⟨.loopLimit limit, s⟩) r)
    (hunwritable : ∀ limit r, limits.loop = some limit → Numeral.isWritable limit = false → I r →
      E (.unwritable limit) r)
    (hunfinished : ∀ r, limits.loop = none → I r → E .unfinished r)
    (hbody : Triple I body (Kept V I) E) (left done : Nat) :
    Triple I (rounds limits s body left done) (Kept V I) E :=
  Triple.rounds (fun _ r => h.note _ r nofun) (hbody.weaken fun _ _ hr => hr.2) hlimit hunwritable
    hunfinished left done

/-- What holds of the state however the nodes below end, holds however the node ends. -/
theorem node_kept_throughout (h : Invariant (fun _ => True) I fun _ => I) {P : Run → Prop}
    {t : Tree}
    (hvisit : ∀ r, P r → I { r with journal := r.journal.map (.visit path :: ·) })
    (hbelow : ∀ i u, t.children[i]? = some u →
      Triple I (below (i :: path) u) (Kept (fun _ => True) I) fun _ => I) :
    Triple P (node limits below path t) (Kept (fun _ => True) I) fun _ => I := by
  refine node_kept h hvisit (fun _ _ _ => trivial) (fun _ _ _ _ hr => hr)
    (fun s body _ hbody => ?_) hbelow
  exact rounds_kept h (fun _ _ _ _ hr => hr) (fun _ _ _ _ hr => hr) (fun _ _ hr => hr) hbody _ _

end Evaluation

end Curly
