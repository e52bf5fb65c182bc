import Curly.Proofs.Run.Parallel

/-!
# Statements one after the other

The statements of a block may be run in two parts: the second part starts in the state that the first
one leaves, and does there what it does as a block of its own.

## Main definitions

* `Evaluation.statementsFrom`: statements that stand behind others in a block.

## Main statements

* `Evaluation.statements_append`: a block is run in two parts, of which the second may be missed.
* `Tree.Plays.statements_similar`: statements are run alike wherever they stand.
-/

namespace Curly

open Run

/-- Equal scopes agree on all names. -/
theorem Coupling.equal : Coupling (fun _ => Eq) fun _ => True where
  find? := fun h _ => by rw [h]
  declare := fun _ h _ => by rw [h]
  assign := by
    rintro k c _ n i i' v rfl _ hi hi'
    cases hi.symm.trans hi'
    rfl
  push := fun h => by rw [h]
  pop := fun h => by rw [h]

namespace Evaluation

variable {below : Evaluation} {path : List Nat}

/-- Evaluates statements of which the first is child `index` of the node at `path`, and then the tail. -/
def statementsFrom (below : Evaluation) (path : List Nat) (index : Nat) (entries : List Tree)
    (tail : Option Tree) : RunM Value := do
  each below path index entries
  match tail with
  | none => return .null
  | some t => below ((index + entries.length) :: path) t

theorem statementsFrom_zero (es : List Tree) (t : Option Tree) :
    statementsFrom below path 0 es t = statements below path es t := by
  refine congrArg (each below path 0 es >>= ·) (funext fun _ => ?_)
  cases t with
  | none => rfl
  | some t => exact congrArg (fun index => below (index :: path) t) (Nat.zero_add _)

/-- The first statement of a block, and what stands behind it. -/
theorem statements_cons (e : Tree) (es : List Tree) (t : Option Tree) :
    statements below path (e :: es) t = (do
      let _ ← below (0 :: path) e
      statementsFrom below path 1 es t) := by
  unfold statements
  rw [each, bind_assoc]
  refine congrArg (below (0 :: path) e >>= ·) (funext fun _ => ?_)
  refine congrArg (each below path 1 es >>= ·) (funext fun _ => ?_)
  cases t with
  | none => rfl
  | some t => exact congrArg (fun index => below (index :: path) t) (Nat.add_comm es.length 1)

theorem each_append (index : Nat) (es fs : List Tree) :
    each below path index (es ++ fs) = (do
      each below path index es
      each below path (index + es.length) fs) := by
  induction es generalizing index with
  | nil => rfl
  | cons e es ih =>
    have hindex : index + 1 + es.length = index + (e :: es).length := by
      rw [List.length_cons]
      omega
    rw [List.cons_append, each, each, bind_assoc]
    refine congrArg (below (index :: path) e >>= ·) (funext fun _ => ?_)
    rw [ih (index + 1), hindex]

/-- A tail that is run for its effect is a statement like the others. -/
theorem each_toList (es : List Tree) (t : Option Tree) :
    each below path 0 (es ++ t.toList) = (do
      let _ ← statements below path es t
      return ⟨⟩) := by
  rw [each_append]
  unfold statements
  rw [bind_assoc]
  refine congrArg (each below path 0 es >>= ·) (funext fun _ => ?_)
  cases t with
  | none => rfl
  | some t => rw [Nat.zero_add]; rfl

theorem statements_append (es fs : List Tree) (t t' : Option Tree) :
    statements below path (es ++ t.toList ++ fs) t' = (do
      let _ ← statements below path es t
      statementsFrom below path (es ++ t.toList).length fs t') := by
  have hfrom : statements below path (es ++ t.toList ++ fs) t' = (do
      each below path 0 (es ++ t.toList)
      statementsFrom below path (es ++ t.toList).length fs t') := by
    unfold statements
    rw [each_append, bind_assoc, Nat.zero_add]
    refine congrArg (each below path 0 (es ++ t.toList) >>= ·) (funext fun _ => ?_)
    refine congrArg (each below path (es ++ t.toList).length fs >>= ·) (funext fun _ => ?_)
    cases t' with
    | none => rfl
    | some t' => exact congrArg (fun index => below (index :: path) t') List.length_append
  rw [hfrom, each_toList, bind_assoc]
  rfl

variable {es fs : List Tree} {t t' : Option Tree} {r r' : Run}

/-- What comes after statements that succeed starts where they end. -/
theorem statements_append_of_ok {v : Value} (h : statements below path es t r = .ok v r') :
    statements below path (es ++ t.toList ++ fs) t' r =
      statementsFrom below path (es ++ t.toList).length fs t' r' := by
  rw [statements_append, bind_run, h]

/-- Nothing comes after statements that fail. -/
theorem statements_append_of_error {e : RunFault}
    (h : statements below path es t r = .error e r') :
    statements below path (es ++ t.toList ++ fs) t' r = .error e r' := by
  rw [statements_append, bind_run, h]

end Evaluation

open Evaluation

namespace Tree

variable {role : Role} {s : Span} {es : List Tree} {t : Option Tree}

section

variable {rel : Nat → Chain → Chain → Prop} {N : String → Prop}

/-- Similar statements are run alike in scopes that agree on their names, whatever stands before them. -/
theorem Plays.statements_similar {ρ : Span → Span → Prop} {es' : List Tree} {t' : Option Tree}
    (h : Plays role (.block s es t)) (hC : Coupling rel N)
    (hN : ∀ name, Occurs name (.block s es t) → N name)
    (hρ : ∀ s s' n, ρ s s' → ρ (.ofLength s.start n) (.ofLength s'.start n))
    (hes : List.Forall₂ (Similar ρ) es es') (ht : SimilarTails ρ t t') (limits : Limits)
    (n k : Nat) (path path' : List Nat) (index : Nat) :
    Agree (rel k) ρ (statements (evaluationAt limits n) path es t)
      (statementsFrom (evaluationAt limits n) path' index es' t') := by
  have same : ∀ {e e' : Tree}, e ∈ es ++ t.toList → Similar ρ e e' → ∀ p p',
      Agree (rel k) ρ (evaluationAt limits n p e) (evaluationAt limits n p' e') := by
    intro e e' he hsimilar p p'
    obtain ⟨_, hplays⟩ := h.exists_child (u := e) he
    exact evaluationAt_agree hC hρ limits n hplays hsimilar
      (fun name hname => hN name (.child he hname)) k p p'
  have hfirst : List.Forall₂ (fun e e' => ∀ p p',
      Agree (rel k) ρ (evaluationAt limits n p e) (evaluationAt limits n p' e')) es es' := by
    refine List.forall₂_iff_get.2 ⟨hes.length_eq, fun i hi hi' => ?_⟩
    exact same (List.mem_append_left _ (List.get_mem es ⟨i, hi⟩)) (hes.get hi hi')
  refine (each_agree hfirst 0 index).bind fun _ => ?_
  cases ht with
  | none => exact .pure _
  | some ht => exact same (List.mem_append_right es (List.mem_singleton_self _)) ht _ _

/-- The same statements are run alike in scopes that agree on their names. -/
theorem Plays.statements_same (h : Plays role (.block s es t)) (hC : Coupling rel N)
    (hN : ∀ name, Occurs name (.block s es t) → N name) (limits : Limits) (n k : Nat)
    (path path' : List Nat) :
    Agree (rel k) Eq (statements (evaluationAt limits n) path es t)
      (statements (evaluationAt limits n) path' es t) := by
  have hes : List.Forall₂ (Similar Eq) es es :=
    List.forall₂_same.2 fun u _ => .refl (fun _ => rfl) u
  have hagree := h.statements_similar hC hN (fun _ _ _ h => by rw [h]) hes
    (.refl (fun _ => rfl) t) limits n k path path' 0
  rwa [statementsFrom_zero] at hagree

end

/-- The top level is the only scope before a run of statements and after it. -/
theorem Plays.statements_top (h : Plays role (.block s es t)) (limits : Limits) (n : Nat)
    (path : List Nat) {r : Run} (hr : r.scopes.length = 1) :
    (scopesLeft (statements (evaluationAt limits n) path es t r)).length = 1 := by
  have below : ∀ p, ∀ e ∈ es ++ t.toList, KeepsOuter [] (evaluationAt limits n p e) := by
    intro p e he
    obtain ⟨_, hplays⟩ := h.exists_child (u := e) he
    exact (evaluationAt_keeps limits n hplays p []).2
  have houter : Outer [] r := by
    obtain ⟨b, hb⟩ := List.length_eq_one_iff.1 hr
    exact ⟨b.names, by rw [hb]; rfl⟩
  have hlength : ∀ r', Outer [] r' → r'.scopes.length = 1 := by
    rintro r' ⟨names, hnames⟩
    exact (List.length_map Bindings.names).symm.trans (congrArg List.length hnames)
  have hstatements : KeepsOuter [] (statements (evaluationAt limits n) path es t) :=
    statements_keepsOuter (fun p e he => below p e (List.mem_append_left _ he))
      fun p e he => below p e (List.mem_append_right es (Option.mem_toList.2 he))
  have hkeeps := hstatements r houter
  split at hkeeps
  · next heq =>
    rw [heq]
    exact hlength _ hkeeps
  · next heq =>
    rw [heq]
    exact hlength _ hkeeps

end Tree

end Curly
