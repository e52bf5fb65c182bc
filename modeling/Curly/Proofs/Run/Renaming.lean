import Curly.Proofs.Run.Sequence
import Curly.Proofs.Scope.Values
import Curly.Proofs.Tree.Renaming
import Curly.Proofs.Tree.Scoping

/-!
# Evaluation under other names

The names that a block binds for itself are of no account to what lies around it: a run in which such a
name is replaced takes the same course. The trees need not be ones that were read from a text.

## Main definitions

* `Translation`: relations of scopes in which a name of the one chain stands for its image in the other,
  and goes on doing so at every step.
* `Renamed`: scopes of blocks of which the outermost binds one name instead of another.

## Main statements

* `evaluationAt_translated`: a tree and its image under a translation are evaluated alike.
* `Tree.local_name_exchanged`: the first name that a block declares may be another one.
-/

namespace Curly

open Run Evaluation

/-- Relations of scopes in which the names in `N` stand for their images under `f`. The number counts the
blocks that both runs have entered since they began. A name that has no binding is its own image, since
the error says it. -/
structure Translation (f : String → String) (N : String → Prop)
    (rel : Nat → Chain → Chain → Prop) : Prop where
  find? : ∀ {k c c' n}, rel k c c' → N n → c.find? n = c'.find? (f n)
  owner? : ∀ {k c c' n}, rel k c c' → N n → c.owner? n = c'.owner? (f n)
  unbound : ∀ {k c c' n}, rel k c c' → N n → c.find? n = none → f n = n
  declare : ∀ {k c c' n} v, rel k c c' → N n → rel k (c.declare n v) (c'.declare (f n) v)
  assign : ∀ {k c c' d d' n i} v, rel k c c' → N n → c.owner? n = some i → rel k d d' →
    rel k (d.assign i n v) (d'.assign i (f n) v)
  push : ∀ {k c c'}, rel k c c' → rel (k + 1) c.push c'.push
  pop : ∀ {k c c'}, rel (k + 1) c c' → rel k c.pop c'.pop

/-- Every name stands for itself in scopes that are the same. -/
theorem Translation.same : Translation id (fun _ => True) fun _ => Eq where
  find? := fun h _ => by rw [h, id]
  owner? := fun h _ => by rw [h, id]
  unbound := fun _ _ _ => rfl
  declare := fun _ h _ => by rw [h, id]
  assign := fun _ _ _ _ h => by rw [h, id]
  push := congrArg Chain.push
  pop := congrArg Chain.pop

namespace Evaluation

variable {f : String → String} {N : String → Prop} {rel : Nat → Chain → Chain → Prop}
  {below : Evaluation} {path path' : List Nat} {k : Nat} {name : String} {es : List Tree}
  {tail : Option Tree}

theorem reference_translated (hT : Translation f N rel) (span : Span) (hname : N name) :
    Agree (rel k) Eq (reference path span name) (reference path' span (f name)) := by
  refine Agree.scopesFor fun c c' hc => ?_
  rw [← hT.find? hc hname]
  cases hfind : c.find? name with
  | some v => exact .pure v
  | none =>
    rw [hT.unbound hc hname hfind]
    exact .fail _ rfl

/-- The owners are found in the scopes before the value is known, and are as far out in both. -/
theorem assignment_translated (hT : Translation f N rel) (span : Span) {e e' : Tree} (hname : N name)
    (he : ∀ p p', Agree (rel k) Eq (below p e) (below p' e')) :
    Agree (rel k) Eq (assignment below path span name e)
      (assignment below path' span (f name) e') := by
  refine Agree.scopesFor fun c c' hc => ?_
  rw [← hT.owner? hc hname]
  cases hi : c.owner? name with
  | none =>
    rw [hT.unbound hc hname (Chain.owner?_eq_none_iff.1 hi)]
    exact .fail _ rfl
  | some i =>
    have store : ∀ v, ∀ q q' : Run, rel k q.scopes q'.scopes →
        Ends (rel k) Eq (AtSame Eq q q')
          ((do
            modify fun r => { r with scopes := r.scopes.assign i name v }
            return v : RunM Value) q)
          ((do
            modify fun r => { r with scopes := r.scopes.assign i (f name) v }
            return v : RunM Value) q') :=
      fun v q q' hq => .ok (hT.assign v hc hname hi hq) fun hat => hat
    exact Agree.bind (he _ _) store

theorem declare_translated (hT : Translation f N rel) (hname : N name) (v : Value) :
    Agree (rel k) Eq (declare name v) (declare (f name) v) := by
  intro r r' hr
  obtain ⟨q, hq, hscopes, hcurrent⟩ := declare_run name v r
  obtain ⟨q', hq', hscopes', hcurrent'⟩ := declare_run (f name) v r'
  rw [hq, hq']
  refine .ok ?_ fun hat => ?_
  · rw [hscopes, hscopes']
    exact hT.declare v hr hname
  · rw [AtSame, hcurrent, hcurrent']
    exact hat

theorem statementsFrom_translated {R : Chain → Chain → Prop}
    (h : ∀ e ∈ es ++ tail.toList, ∀ p p', Agree R Eq (below p e) (below p' (e.mapNames f)))
    (index index' : Nat) :
    Agree R Eq (statementsFrom below path index es tail)
      (statementsFrom below path' index' (es.map (Tree.mapNames f))
        (tail.map (Tree.mapNames f))) := by
  refine (each_agree ?_ index index').bind fun _ => ?_
  · rw [List.forall₂_map_right_iff, List.forall₂_same]
    intro e he
    exact h e (List.mem_append_left _ he)
  · cases tail with
    | none => exact .pure _
    | some t => exact h t (List.mem_append_right _ (List.mem_singleton_self t)) _ _

end Evaluation

/-- **Simulation**: a tree and its image are evaluated alike in scopes that are related. -/
theorem evaluationAt_translated {f : String → String} {N : String → Prop}
    {rel : Nat → Chain → Chain → Prop} (hT : Translation f N rel) (limits : Limits) (n : Nat)
    (t : Tree) (hN : ∀ name, t.Occurs name → N name) (k : Nat) (path path' : List Nat) :
    Agree (rel k) Eq (evaluationAt limits n path t) (evaluationAt limits n path' (t.mapNames f)) := by
  -- The induction is on the room, with the number of blocks entered left open.
  induction n using Nat.strongRecOn generalizing t k path path' with
  | ind n ih =>
    obtain _ | n := n
    · exact .throw .tooDeep rfl
    rw [evaluationAt_succ, evaluationAt_succ, Tree.calls_mapNames]
    have child : ∀ {k : Nat} {u : Tree}, u ∈ t.children → ∀ p p',
        Agree (rel k) Eq (evaluationAt limits (n + 1 - t.calls) p u)
          (evaluationAt limits (n + 1 - t.calls) p' (u.mapNames f)) :=
      fun hu p p' => ih _ (t.sub_calls_lt n) _ (fun name hname => hN name (.child hu hname)) _ p p'
    generalize evaluationAt limits (n + 1 - t.calls) = below at child
    by_cases hloop : ∃ s b, t = .loop s b
    · obtain ⟨s, b, rfl⟩ := hloop
      exact (Agree.note _ _).bind fun _ => Agree.atNodes (@rfl Span s) fun _ _ =>
        Agree.rounds rfl (child (List.mem_singleton_self _) _ _) _ _
    have hspan : t.span = (t.mapNames f).span := (t.span_mapNames f).symm
    refine (Agree.note _ _).bind fun _ => (Agree.setCurrent hspan).bind fun _ => ?_
    cases t with
    | literal => exact .pure _
    | reference => exact reference_translated hT _ (hN _ (.root rfl))
    | nameless => exact .fail _ rfl
    | bare => exact .fail _ rfl
    | declaration =>
      refine (child (List.mem_singleton_self _) _ _).bind fun v => ?_
      exact declare_translated hT (hN _ (.root rfl)) v
    | assignment =>
      exact assignment_translated hT _ (hN _ (.root rfl)) (child (List.mem_singleton_self _))
    | binary =>
      exact binary_agree rfl (child (List.mem_cons_self ..))
        (child (List.mem_cons_of_mem _ (List.mem_singleton_self _)))
    | unary =>
      exact (child (List.mem_singleton_self _) _ _).bind fun v => applyUnary_agree rfl _ v
    | call => exact (child (List.mem_cons_self ..) _ _).bind fun _ => .fail _ rfl
    | block s es tail =>
      have hstatements : Agree (rel (k + 1)) Eq (statements below path es tail)
          (statements below path' (es.map (Tree.mapNames f))
            (tail.map (Tree.mapNames f))) := by
        have hentries : ∀ e ∈ es ++ tail.toList, ∀ p p',
            Agree (rel (k + 1)) Eq (below p e) (below p' (e.mapNames f)) := fun _ he => child he
        rw [← statementsFrom_zero, ← statementsFrom_zero]
        exact statementsFrom_translated hentries 0 0
      rw [Tree.mapNames, Tree.mapNamesAll_eq_map, Tree.mapNamesTail_eq_map]
      refine Agree.read fun _ _ => (Agree.note _ _).bind fun _ => ?_
      exact Agree.inside hstatements (fun _ _ => hT.push) fun _ _ => hT.pop
    | doBlock => exact child (List.mem_singleton_self _) _ _
    | loop s b => exact absurd ⟨s, b, rfl⟩ hloop

/-! ### One name in the place of another -/

namespace Bindings

variable {x y n : String} {b b' : Bindings}

/-- What the first scope binds to a name, the second one binds to the name that has taken its place. What
they bind to `y` in the first and, for it, to `x` in the second, is left open. -/
def Renamed (x y : String) (b b' : Bindings) : Prop :=
  ∀ n, n ≠ y → b.find? n = b'.find? (Tree.exchange x y n)

theorem Renamed.binds (h : Renamed x y b b') (hn : n ≠ y) :
    b.binds n = b'.binds (Tree.exchange x y n) := by
  rw [Bindings.binds, Bindings.binds, h n hn]

theorem Renamed.bind (h : Renamed x y b b') (hn : n ≠ y) (v : Value) :
    Renamed x y (bind n v b) (bind (Tree.exchange x y n) v b') := by
  intro m hm
  rw [find?_bind, find?_bind, h m hm]
  by_cases hmn : m = n
  · rw [if_pos hmn, if_pos ((Tree.exchange_inj hm hn).2 hmn)]
  · rw [if_neg hmn, if_neg fun h => hmn ((Tree.exchange_inj hm hn).1 h)]

/-- In two scopes that are the same, one name is bound in the one and another in the other. -/
theorem renamed_bind (x y : String) (b : Bindings) (v : Value) :
    Renamed x y (Bindings.bind x v b) (Bindings.bind y v b) := by
  intro m hm
  rw [find?_bind, find?_bind]
  by_cases hmx : m = x
  · rw [if_pos hmx, hmx, Tree.exchange_self, if_pos rfl]
  · rw [if_neg hmx, Tree.exchange_of_ne hmx, if_neg hm]

end Bindings

/-- After `k` blocks were entered inside a block that binds the name, the scopes of all of them bind `y`
where they did bind `x`. The scopes around the block are the same. -/
inductive Renamed (x y : String) : Nat → Chain → Chain → Prop where
  | base {b b' outer} (hx : b.binds x = true) (h : b.Renamed x y b') :
      Renamed x y 0 (b :: outer) (b' :: outer)
  | layer {k b b' c c'} (h : b.Renamed x y b') (hc : Renamed x y k c c') :
      Renamed x y (k + 1) (b :: c) (b' :: c')

namespace Renamed

variable {x y n : String} {k i : Nat} {c c' : Chain}

theorem find?_ne_none (h : Renamed x y k c c') : c.find? x ≠ none := by
  intro hnone
  induction h with
  | base hx _ =>
    rw [Chain.find?_cons, Option.or_eq_none_iff] at hnone
    rw [Bindings.binds, hnone.1] at hx
    cases hx
  | layer _ _ ih =>
    rw [Chain.find?_cons, Option.or_eq_none_iff] at hnone
    exact ih hnone.2

theorem find? (h : Renamed x y k c c') (hn : n ≠ y) :
    c.find? n = c'.find? (Tree.exchange x y n) := by
  induction h with
  | base hx h =>
    rw [Chain.find?_cons, Chain.find?_cons, ← h n hn]
    by_cases hnx : n = x
    · -- The block binds the name, so that the scopes around it do not count.
      obtain ⟨v, hv⟩ := Option.isSome_iff_exists.1 hx
      rw [hnx, hv, Option.some_or, Option.some_or]
    · rw [Tree.exchange_of_ne hnx]
  | layer h _ ih => rw [Chain.find?_cons, Chain.find?_cons, ← h n hn, ih]

theorem owner? (h : Renamed x y k c c') (hn : n ≠ y) :
    c.owner? n = c'.owner? (Tree.exchange x y n) := by
  induction h with
  | base hx h =>
    rw [Chain.owner?_cons, Chain.owner?_cons, ← h.binds hn]
    by_cases hnx : n = x
    · rw [hnx, hx, if_pos rfl, if_pos rfl]
    · rw [Tree.exchange_of_ne hnx]
  | layer h _ ih => rw [Chain.owner?_cons, Chain.owner?_cons, ← h.binds hn, ih]

/-- The owner of the name is a scope of the blocks that were entered. -/
theorem owner?_le (h : Renamed x y k c c') (hi : c.owner? x = some i) : i ≤ k := by
  induction h generalizing i with
  | base hx _ =>
    rw [Chain.owner?_cons, if_pos hx] at hi
    cases hi
    exact Nat.le_refl 0
  | layer _ _ ih =>
    rw [Chain.owner?_cons] at hi
    split at hi
    · cases hi
      exact Nat.zero_le _
    · obtain ⟨j, hj, rfl⟩ := Option.map_eq_some_iff.1 hi
      exact Nat.succ_le_succ (ih hj)

theorem declare (h : Renamed x y k c c') (hn : n ≠ y) (v : Value) :
    Renamed x y k (c.declare n v) (c'.declare (Tree.exchange x y n) v) := by
  cases h with
  | base hx h => exact .base (by rw [Bindings.binds_bind, hx, Bool.or_true]) (h.bind hn v)
  | layer h hc => exact .layer (h.bind hn v) hc

/-- An assignment in one of the blocks that were entered, or to a name that stands for itself. -/
theorem assign (h : Renamed x y k c c') (hn : n ≠ y) (hi : n = x → i ≤ k) (v : Value) :
    Renamed x y k (c.assign i n v) (c'.assign i (Tree.exchange x y n) v) := by
  induction h generalizing i with
  | base hx h =>
    cases i with
    | zero => exact .base (by rw [Bindings.binds_bind, hx, Bool.or_true]) (h.bind hn v)
    | succ i =>
      have hnx : n ≠ x := fun hnx => by have := hi hnx; omega
      rw [Tree.exchange_of_ne hnx]
      exact .base hx h
  | layer h hc ih =>
    cases i with
    | zero => exact .layer (h.bind hn v) hc
    | succ i => exact .layer h (ih fun hnx => Nat.le_of_succ_le_succ (hi hnx))

theorem pop (h : Renamed x y (k + 1) c c') : Renamed x y k c.pop c'.pop := by
  cases h with
  | layer _ hc => exact hc

/-- Around the block nothing is different. -/
theorem pop_eq (h : Renamed x y 0 c c') : c.pop = c'.pop := by
  cases h
  rfl

/-- The block begins with a declaration of the one name or the other. -/
theorem of_declare (x y : String) (c : Chain) (v : Value) :
    Renamed x y 0 (c.declare x v) (c.declare y v) := by
  cases c with
  | nil => exact .base (by rw [Bindings.binds_bind]; simp) (Bindings.renamed_bind x y [] v)
  | cons b c => exact .base (by rw [Bindings.binds_bind]; simp) (Bindings.renamed_bind x y b v)

/-- All names but the new one are translated. -/
theorem translation (x y : String) : Translation (Tree.exchange x y) (· ≠ y) (Renamed x y) where
  find? := fun h hn => h.find? hn
  owner? := fun h hn => h.owner? hn
  unbound := fun h _ hnone => Tree.exchange_of_ne fun hnx => h.find?_ne_none (hnx ▸ hnone)
  declare := fun v h hn => h.declare hn v
  assign := fun v h hn hi hd => hd.assign hn (fun hnx => h.owner?_le (hnx ▸ hi)) v
  push := fun h => .layer (fun _ _ => rfl) h
  pop := fun h => h.pop

end Renamed

section

variable {limits : Limits} {x y : String} {s : Span} {e : Tree} {es : List Tree} {tail : Option Tree}

/-- Statements behind a declaration, run in scopes that are the same. What the declaration binds is all in
which the scopes come to differ. -/
theorem statements_exchanged (hy : ∀ u ∈ es ++ tail.toList, ¬u.Occurs y) (n : Nat) (path : List Nat)
    {r r' : Run} (hr : r.scopes = r'.scopes) :
    Ends (fun c c' => c.pop = c'.pop) Eq True
      (statements (evaluationAt limits n) path (.declaration s x e :: es) tail r)
      (statements (evaluationAt limits n) path (.declaration s y e :: es.map (Tree.rename x y))
        (tail.map (Tree.rename x y)) r') := by
  have hpop : ∀ c c' : Chain, c = c' → c.pop = c'.pop := fun _ _ => congrArg Chain.pop
  rw [statements_cons, statements_cons]
  cases n with
  | zero => exact .error .tooDeep (hpop _ _ hr) nofun
  | succ n =>
    have hvalue : ∀ p, Agree (· = ·) Eq (evaluationAt limits n p e) (evaluationAt limits n p e) := by
      intro p
      have h := evaluationAt_translated .same limits n e (fun _ _ => trivial) 0 p p
      rwa [Tree.mapNames_id] at h
    have hrest : Agree (Renamed x y 0) Eq
        (statementsFrom (evaluationAt limits (n + 1)) path 1 es tail)
        (statementsFrom (evaluationAt limits (n + 1)) path 1 (es.map (Tree.rename x y))
          (tail.map (Tree.rename x y))) := by
      refine statementsFrom_translated (fun u hu p p' => ?_) 1 1
      refine evaluationAt_translated (Renamed.translation x y) limits (n + 1) u ?_ 0 p p'
      rintro name hname rfl
      exact hy u hu hname
    have hunfold : ∀ (z : String) (rest : RunM Value),
        (do
          let _ ← evaluationAt limits (n + 1) (0 :: path) (.declaration s z e)
          rest) = (do
          note (.visit (0 :: path))
          setCurrent (.declaration s z e)
          let v ← evaluationAt limits n (0 :: 0 :: path) e
          let _ ← declare z v
          rest) := by
      intro z rest
      simp only [evaluationAt_succ, Tree.calls, Nat.add_sub_cancel, node, bind_assoc]
    rw [hunfold, hunfold]
    refine Ends.bind (Agree.note _ _ r r' hr) hpop fun _ q q' hq _ => ?_
    refine Ends.bind (Ends.setCurrent (@rfl Span s) hq) hpop fun _ q q' hq hat => ?_
    refine Ends.bind (hvalue _ q q' hq) hpop fun v q q' hq hvalue => ?_
    -- From here on the scopes differ, by the binding that is made now.
    obtain ⟨o, ho, hscopes, hcurrent⟩ := declare_run x v q
    obtain ⟨o', ho', hscopes', hcurrent'⟩ := declare_run y v q'
    rw [bind_run, ho, bind_run, ho']
    refine (hrest o o' ?_).mono (fun _ _ h => h.pop_eq) fun _ => ?_
    · rw [hscopes, hscopes', hq]
      exact .of_declare x y _ v
    · rw [AtSame, hcurrent, hcurrent']
      exact hvalue (hat trivial)

/-- A block that begins with a declaration, evaluated with any room. -/
theorem evaluationAt_exchanged (limits : Limits) (x : String) (s s' : Span) (e : Tree)
    (hy : ∀ u ∈ es ++ tail.toList, ¬u.Occurs y) (n : Nat) (path : List Nat) :
    Agree (· = ·) Eq (evaluationAt limits n path (.block s' (.declaration s x e :: es) tail))
      (evaluationAt limits n path (.block s' (.declaration s y e :: es.map (Tree.rename x y))
        (tail.map (Tree.rename x y)))) := by
  cases n with
  | zero => exact .throw .tooDeep rfl
  | succ n =>
    rw [evaluationAt_succ, evaluationAt_succ]
    refine (Agree.note _ _).bind fun _ => (Agree.setCurrent (@rfl Span s')).bind fun _ => ?_
    refine Agree.read fun _ _ => (Agree.note _ _).bind fun _ r r' hr => ?_
    have hpush : r.scopes.push = r'.scopes.push := congrArg Chain.push hr
    exact (Ends.inside r r' (statements_exchanged hy _ path hpush) fun _ _ h => h).mono
      (fun _ _ h => h) fun _ => trivial

/-- A block that is run once, evaluated with any room. -/
theorem evaluationAt_doBlock {b b' : Tree}
    (h : ∀ n path, Agree (· = ·) Eq (evaluationAt limits n path b) (evaluationAt limits n path b'))
    (s : Span) (n : Nat) (path : List Nat) :
    Agree (· = ·) Eq (evaluationAt limits n path (.doBlock s b))
      (evaluationAt limits n path (.doBlock s b')) := by
  cases n with
  | zero => exact .throw .tooDeep rfl
  | succ n =>
    rw [evaluationAt_succ, evaluationAt_succ]
    exact (Agree.note _ _).bind fun _ => (Agree.setCurrent (@rfl Span s)).bind fun _ => h _ _

end

namespace Tree

/-- A name does not occur in a tree if it occurs neither at the root nor below. -/
theorem not_occurs {t : Tree} {name : String} (hroot : t.name? ≠ some name)
    (hchildren : ∀ u ∈ t.children, ¬u.Occurs name) : ¬t.Occurs name := by
  intro h
  cases h with
  | root h => exact hroot h
  | child hu h => exact hchildren _ hu h

/-- **Local names may be exchanged.** If the first statement of a block declares a name, any other name
may be declared instead that occurs nowhere in the rest of the block, where it then takes the place of the
first one. The value is the same or the error is, and so is what becomes of the scopes around the block,
whatever these bind. -/
theorem local_name_exchanged (limits : Limits) (r : Run) (s s' s'' : Span) (x y : String) (e : Tree)
    (es : List Tree) (tail : Option Tree) (hy : ∀ u ∈ es ++ tail.toList, ¬u.Occurs y) :
    outcome (evaluate limits (.doBlock s (.block s' (.declaration s'' x e :: es) tail)) r) =
      outcome (evaluate limits (.doBlock s (.block s' (.declaration s'' y e :: es.map (rename x y))
        (tail.map (rename x y)))) r) ∧
    scopesLeft (evaluate limits (.doBlock s (.block s' (.declaration s'' x e :: es) tail)) r) =
      scopesLeft (evaluate limits (.doBlock s (.block s' (.declaration s'' y e ::
        es.map (rename x y)) (tail.map (rename x y)))) r) := by
  have hdo := evaluationAt_doBlock (evaluationAt_exchanged limits x s'' s' e hy) s nestingLimit []
  have h := Agree.boundedAt (@rfl Span s) hdo r r rfl
  exact ⟨h.outcome_eq, h.scopesLeft⟩

/-- A local name that has the value of the outer name which takes its place, between bindings of both. An
inner block assigns to it. -/
theorem local_name_exchanged_between_bindings :
    (∀ u ∈ [.doBlock .origin (.block .origin
        [.assignment .origin "x" (.unary .origin .not (.reference .origin "x"))] none)] ++
        (some (.reference .origin "x")).toList, ¬Occurs "y" u) ∧
      outcome (evaluate { loop := none } (.doBlock .origin (.block .origin
        (.declaration .origin "x" (.reference .origin "y") :: [.doBlock .origin (.block .origin
          [.assignment .origin "x" (.unary .origin .not (.reference .origin "x"))] none)])
        (some (.reference .origin "x"))))
        ⟨[[("x", .string "outer"), ("y", .bool false)]], none, none⟩) =
      outcome (evaluate { loop := none } (.doBlock .origin (.block .origin
        (.declaration .origin "y" (.reference .origin "y") :: [.doBlock .origin (.block .origin
          [.assignment .origin "y" (.unary .origin .not (.reference .origin "y"))] none)])
        (some (.reference .origin "y"))))
        ⟨[[("x", .string "outer"), ("y", .bool false)]], none, none⟩) := by
  have leaf : ¬Occurs "y" (.reference .origin "x") := not_occurs (by decide) nofun
  have above : ∀ {t u : Tree}, t.name? ≠ some "y" → t.children = [u] → ¬u.Occurs "y" →
      ¬t.Occurs "y" := by
    intro t u ht hchildren hu
    refine not_occurs ht fun v hv => ?_
    rw [hchildren, List.mem_singleton] at hv
    rwa [hv]
  have hy : ∀ u ∈ [.doBlock .origin (.block .origin
      [.assignment .origin "x" (.unary .origin .not (.reference .origin "x"))] none)] ++
      (some (.reference .origin "x")).toList, ¬Occurs "y" u := by
    refine List.forall_mem_cons.2 ⟨?_, List.forall_mem_singleton.2 leaf⟩
    apply above (by decide) rfl
    apply above (by decide) rfl
    apply above (by decide) rfl
    exact above (by decide) rfl leaf
  exact ⟨hy, (local_name_exchanged { loop := none }
    ⟨[[("x", .string "outer"), ("y", .bool false)]], none, none⟩ .origin .origin .origin "x" "y"
    (.reference .origin "y") _ _ hy).1⟩

end Tree

end Curly
