import Curly.Proofs.Grammar.Roles
import Curly.Proofs.Run.Depth
import Curly.Proofs.Run.Sequence
import Curly.Proofs.Scope.Values

/-!
# Evaluation sees what is visible

How a tree is evaluated depends on the visible values of the names in it, and not on the number of scopes
or on what they hide.

## Main definitions

* `Layered`: scopes of blocks that were entered, the same in both chains, around which names have the
  same values.

## Main statements

* `Tree.evaluation_sees_visible`: evaluation in scopes that show the same.
-/

namespace Curly

open Run Evaluation

/-- After `k` blocks were entered, the scopes of these blocks are the same, and outside of them the names
in `N` have the same values. -/
inductive Layered (N : String → Prop) : Nat → Chain → Chain → Prop where
  | base {c c'} (h : ∀ n, N n → c.find? n = c'.find? n) : Layered N 0 c c'
  | layer {k c c'} (b : Bindings) (h : Layered N k c c') : Layered N (k + 1) (b :: c) (b :: c')

namespace Layered

variable {N : String → Prop} {k : Nat} {c c' : Chain} {name : String}

theorem find? (h : Layered N k c c') (hname : N name) : c.find? name = c'.find? name := by
  induction h with
  | base h => exact h name hname
  | layer b _ ih => rw [Chain.find?_cons, Chain.find?_cons, ih]

theorem declare (h : Layered N k c c') (v : Value) :
    Layered N k (c.declare name v) (c'.declare name v) := by
  cases h with
  | base h =>
    refine .base fun n hn => ?_
    rw [Chain.find?_declare, Chain.find?_declare, h n hn]
  | layer b h => exact .layer _ h

/-- The owner of a name is a block that both chains share, or it lies outside of them in both. -/
theorem assign (h : Layered N k c c') {i i' : Nat} (hi : c.owner? name = some i)
    (hi' : c'.owner? name = some i') (v : Value) :
    Layered N k (c.assign i name v) (c'.assign i' name v) := by
  induction h generalizing i i' with
  | base h =>
    refine .base fun n hn => ?_
    rw [Chain.find?_assign hi, Chain.find?_assign hi', h n hn]
  | layer b h ih =>
    rw [Chain.owner?, List.findIdx?_cons] at hi hi'
    -- The shared scope owns the name in both chains or in neither of them.
    by_cases hb : b.binds name = true
    · rw [if_pos hb] at hi hi'
      cases hi
      cases hi'
      exact .layer _ h
    · rw [if_neg hb] at hi hi'
      obtain ⟨j, hj, rfl⟩ := Option.map_eq_some_iff.1 hi
      obtain ⟨j', hj', rfl⟩ := Option.map_eq_some_iff.1 hi'
      exact .layer b (ih hj hj')

theorem pop (h : Layered N (k + 1) c c') : Layered N k c.pop c'.pop := by
  cases h with
  | layer b h => exact h

theorem coupling (N : String → Prop) : Coupling (Layered N) N where
  find? := fun h hname => h.find? hname
  declare := fun v h _ => h.declare v
  assign := fun v h _ hi hi' => h.assign hi hi' v
  push := fun h => .layer [] h
  pop := fun h => h.pop

end Layered

namespace Run

variable {α : Type}

theorem outcome_inside (m : RunM α) (r : Run) :
    outcome (Run.inside m r) = outcome (m { r with scopes := r.scopes.push }) := by
  unfold Run.inside
  split <;> next h => rw [h]; rfl

/-- Nesting that is too deep counts as an error of the language. -/
def bounded (span : Span) : Except RunFault α → Except RunFault α
  | .error .tooDeep => .error (.error ⟨.nestedTooDeeply, span⟩)
  | x => x

theorem outcome_boundedAt (span : Span) (m : RunM α) (r : Run) :
    outcome (Run.boundedAt span m r) = bounded span (outcome (m r)) := by
  unfold Run.boundedAt
  split
  · next h => rw [h]; rfl
  · next hne =>
    cases hm : m r with
    | ok => rfl
    | error e s =>
      cases e with
      | tooDeep => exact absurd hm (hne s)
      | _ => rfl

end Run

namespace Tree

variable {t : Tree} {role : Role} {limits : Limits}

/-- Any part of a tree is evaluated alike in scopes that agree on the names of the tree. -/
theorem Plays.part_agree {N : String → Prop} (h : Plays role t) (hN : ∀ n, t.Occurs n → N n)
    (n k : Nat) (path path' : List Nat) :
    Agree (Layered N k) Eq (evaluationAt limits n path t) (evaluationAt limits n path' t) :=
  evaluationAt_agree (Layered.coupling N) (fun _ _ _ h => by rw [h]) limits n h
    (.refl (fun _ => rfl) t) hN k path path'

theorem Plays.statements_agree {s : Span} {es : List Tree} {tail : Option Tree}
    (h : Plays role (.block s es tail)) (n k : Nat) (path path' : List Nat) :
    Agree (Layered (fun name => Occurs name (.block s es tail)) k) Eq
      (statements (evaluationAt limits n) path es tail)
      (statements (evaluationAt limits n) path' es tail) :=
  h.statements_same (Layered.coupling _) (fun _ hname => hname) limits n k path path'

/-- With one call for the block itself, a block that is evaluated ends like its statements do when they
are run in the scopes around it. -/
theorem Plays.outcome_block {s : Span} {es : List Tree} {tail : Option Tree}
    (h : Plays role (.block s es tail)) (n : Nat) (path path' : List Nat) (r : Run) :
    outcome (evaluationAt limits (n + 1) path (.block s es tail) r) =
      outcome (statements (evaluationAt limits (n - 1)) path' es tail r) := by
  have hrun : ∃ r' : Run, r'.scopes = r.scopes ∧
      evaluationAt limits (n + 1) path (.block s es tail) r =
        Run.inside (statements (evaluationAt limits (n - 1)) path es tail) r' := by
    rw [evaluationAt_succ]
    exact ⟨⟨r.scopes, some (.block s es tail), _⟩, rfl, rfl⟩
  obtain ⟨r', hscopes, hrun⟩ := hrun
  rw [hrun, outcome_inside]
  -- The new scope is empty, and an empty scope hides nothing.
  refine (h.statements_agree (n - 1) 0 path path' _ r (.base fun name _ => ?_)).outcome_eq
  rw [Chain.push, Chain.find?_cons, hscopes]
  rfl

/-- Evaluation of a block ends like the run of its statements with room for one call less. -/
theorem Plays.evaluateWithin_block {s : Span} {es : List Tree} {tail : Option Tree}
    (h : Plays role (.block s es tail)) (n : Nat) (r : Run) :
    outcome (evaluateWithin (n + 1) limits (.block s es tail) r) =
      outcome (runWithin n limits (.block s es tail) r) := by
  unfold evaluateWithin runWithin
  rw [outcome_boundedAt, outcome_boundedAt, h.outcome_block n [] [] r]

/-- Evaluation of a block ends like the run of its statements, unless one call more is too many. -/
theorem Plays.evaluateWithin_block_or {s : Span} {es : List Tree} {tail : Option Tree}
    (h : Plays role (.block s es tail)) (n : Nat) (r : Run) :
    outcome (evaluateWithin n limits (.block s es tail) r) =
        outcome (runWithin n limits (.block s es tail) r) ∨
      outcome (evaluateWithin n limits (.block s es tail) r) = .error (.error ⟨.nestedTooDeeply, s⟩) := by
  rw [← h.evaluateWithin_block n r]
  unfold evaluateWithin
  rw [outcome_boundedAt, outcome_boundedAt]
  rcases evaluationAt_upTo limits (Nat.le_succ n) [] (.block s es tail) r with ⟨_, r', rfl, hdeep⟩ | hsame
  · right
    rw [hdeep]
    rfl
  · left
    rw [hsame]

/-- **Evaluation sees what is visible.** Any node of a tree that was read is evaluated alike in any two
chains of scopes that show the same values for the names in it: the value is the same or the error is,
and both chains show the same values for these names afterwards. The same holds if the node is run. The
evaluation of a block ends like its run with room for one call less, since the block itself takes one;
with the same room it ends like its run or is nested too deeply. -/
theorem evaluation_sees_visible {unit : TextUnit} {text : List Char} {T t : Tree} {c : Cursor}
    {path : List Nat} (hread : Tree.read unit text = .ok T c) (ht : T.at? path = some t)
    (limits : Limits) (r r' : Run)
    (hvisible : ∀ name, t.Occurs name → r.scopes.find? name = r'.scopes.find? name) :
    (outcome (t.evaluate limits r) = outcome (t.evaluate limits r') ∧
      ∀ name, t.Occurs name → (scopesLeft (t.evaluate limits r)).find? name =
        (scopesLeft (t.evaluate limits r')).find? name) ∧
    (outcome (t.run limits r) = outcome (t.run limits r') ∧
      ∀ name, t.Occurs name → (scopesLeft (t.run limits r)).find? name =
        (scopesLeft (t.run limits r')).find? name) ∧
    ∀ s es tail, t = .block s es tail →
      (∀ n, outcome (t.evaluateWithin (n + 1) limits r) = outcome (t.runWithin n limits r)) ∧
      (outcome (t.evaluate limits r) = outcome (t.run limits r) ∨
        outcome (t.evaluate limits r) = .error (.error ⟨.nestedTooDeeply, s⟩)) := by
  obtain ⟨role, hplays⟩ := (Tree.read_plays hread).exists_at? ht
  have hbase : Layered t.Occurs 0 r.scopes r'.scopes := .base hvisible
  have hevaluate : Ends (Layered t.Occurs 0) Eq (AtSame Eq r r') (t.evaluate limits r)
      (t.evaluate limits r') :=
    Agree.boundedAt rfl (hplays.part_agree (fun _ h => h) _ 0 [] []) r r' hbase
  have hrun : outcome (t.run limits r) = outcome (t.run limits r') ∧
      Layered t.Occurs 0 (scopesLeft (t.run limits r)) (scopesLeft (t.run limits r')) := by
    cases t with
    | block s es tail =>
      have h : Ends (Layered (fun name => Occurs name (.block s es tail)) 0) Eq (AtSame Eq r r')
          (run limits (.block s es tail) r) (run limits (.block s es tail) r') :=
        Agree.boundedAt rfl (hplays.statements_agree _ 0 [] []) r r' hbase
      exact ⟨h.outcome_eq, h.scopesLeft⟩
    | _ => exact ⟨rfl, hbase⟩
  refine ⟨⟨hevaluate.outcome_eq, fun _ h => hevaluate.scopesLeft.find? h⟩,
    ⟨hrun.1, fun _ h => hrun.2.find? h⟩, ?_⟩
  rintro s es tail rfl
  exact ⟨fun n => hplays.evaluateWithin_block n r, hplays.evaluateWithin_block_or nestingLimit r⟩

/-- A comparison with as many operators as a run has room for. -/
def longComparison : List Char := "true".toList ++ (List.replicate 499 "==true".toList).flatten

/-- If the comparison is evaluated as a block and not run, it is nested too deeply. -/
theorem evaluation_of_block_too_deep :
    ∃ T c v, Tree.read .statements longComparison = .ok T c ∧
      outcome (T.run { loop := none } ⟨[[]], none, none⟩) = .ok v ∧
      outcome (T.evaluate { loop := none } ⟨[[]], none, none⟩) =
        .error (.error ⟨.nestedTooDeeply, T.span⟩) := by
  have hends : (Cursor.result? (Tree.read .statements longComparison)).map (fun T =>
      ((outcome (T.run { loop := none } ⟨[[]], none, none⟩)).isOk,
        (outcome (T.evaluate { loop := none } ⟨[[]], none, none⟩)).isOk)) =
      some (true, false) := by decide +kernel
  obtain ⟨T, hT, hends⟩ := Option.map_eq_some_iff.1 hends
  obtain ⟨hrun, hevaluate⟩ := Prod.mk.inj hends
  obtain ⟨c, h⟩ := Cursor.exists_of_result? hT
  have hplays : Plays .block T := Tree.read_plays h
  cases hplays with
  | @block s es tail hes htail =>
    cases hv : outcome (run { loop := none } (.block s es tail) ⟨[[]], none, none⟩) with
    | error e =>
      rw [hv] at hrun
      cases hrun
    | ok v =>
      refine ⟨_, c, v, h, hv, ?_⟩
      have hplays : Plays .block (.block s es tail) := .block hes htail
      refine (hplays.evaluateWithin_block_or nestingLimit _).resolve_left fun hsame => ?_
      rw [evaluate, hsame, ← run, hv] at hevaluate
      cases hevaluate

/-- An assignment that goes through an empty scope. -/
theorem evaluation_sees_visible_through_scope :
    ∃ T c, Tree.read .statements "x = not x".toList = .ok T c ∧ T.at? [] = some T ∧
      (∀ name, T.Occurs name →
        Chain.find? [[("x", .bool true)]] name = Chain.find? [[], [("x", .bool true)]] name) ∧
      outcome (T.run { loop := none } ⟨[[("x", .bool true)]], none, none⟩) =
        outcome (T.run { loop := none } ⟨[[], [("x", .bool true)]], none, none⟩) := by
  obtain ⟨T, c, h⟩ := Cursor.exists_ok (r := Tree.read .statements "x = not x".toList)
    (by decide +kernel)
  have hvisible : ∀ name,
      Chain.find? [[("x", .bool true)]] name = Chain.find? [[], [("x", .bool true)]] name :=
    fun name => (Chain.find?_cons [] _ name).symm
  refine ⟨T, c, h, rfl, fun name _ => hvisible name, ?_⟩
  have hroot : T.at? [] = some T := rfl
  exact (evaluation_sees_visible h hroot { loop := none }
    ⟨[[("x", .bool true)]], none, none⟩ ⟨[[], [("x", .bool true)]], none, none⟩
    fun name _ => hvisible name).2.1.1

end Tree

end Curly
