import Curly.Proofs.Run.Frame
import Curly.Proofs.Tree.Similar

/-!
# Two runs side by side

Two runs of similar trees in different scopes take the same course if the scopes agree on the names in
the trees, and go on agreeing whatever is bound in both. What it means to agree is left open, apart from
the laws that every step needs.

## Main definitions

* `Coupling`: relations of scopes, by the number of blocks entered, that every step respects.
* `Agree`: steps that come to the same end in related scopes.
* `Tree.Occurs`: the names in a tree.

## Main statements

* `evaluationAt_agree`: similar trees are evaluated alike.
-/

namespace Curly

open Run Evaluation

namespace Tree

/-- The name at the root of a tree. -/
def name? : Tree → Option String
  | reference _ n => some n
  | declaration _ n _ => some n
  | assignment _ n _ => some n
  | _ => none

/-- The name occurs in the tree. -/
inductive Occurs (name : String) : Tree → Prop where
  | root {t} (h : t.name? = some name) : Occurs name t
  | child {t u} (hu : u ∈ t.children) (h : Occurs name u) : Occurs name t

theorem exists_getElem?_of_mem {l l' : List Tree} (h : l.length = l'.length) {u : Tree}
    (hu : u ∈ l') : ∃ (i : Nat) (t : Tree), l[i]? = some t ∧ l'[i]? = some u := by
  obtain ⟨i, hi, rfl⟩ := List.mem_iff_getElem.1 hu
  exact ⟨i, l[i], List.getElem?_eq_getElem (h ▸ hi), List.getElem?_eq_getElem hi⟩

/-- A tree that is similar to one read from a text plays the same role. -/
theorem Similar.plays {ρ : Span → Span → Prop} {role : Role} {t t' : Tree} (h : Similar ρ t t')
    (ht : Plays role t) : Plays role t' := by
  induction ht generalizing t' with
  | literal =>
    cases h
    exact .literal
  | reference =>
    cases h
    exact .reference
  | assignment _ ih =>
    cases h with
    | assignment _ he => exact .assignment (ih he)
  | binary _ _ iha ihb =>
    cases h with
    | binary _ ha hb => exact .binary (iha ha) (ihb hb)
  | unary _ ih =>
    cases h with
    | unary _ ha => exact .unary (ih ha)
  | call _ _ ihf ihargs =>
    cases h with
    | call _ hf hlength hargs =>
      refine .call (ihf hf) fun a' hmem => ?_
      obtain ⟨i, a, ha, ha'⟩ := exists_getElem?_of_mem hlength hmem
      exact ihargs a (List.mem_of_getElem? ha) (hargs i a a' ha ha')
  | doBlock _ ih =>
    cases h with
    | doBlock _ hb => exact .doBlock (ih hb)
  | loop _ ih =>
    cases h with
    | loop _ hb => exact .loop (ih hb)
  | @block _ _ tail _ _ ihes ihtail =>
    cases h with
    | block _ hlength hes htail ht =>
      refine .block (fun e' hmem => ?_) fun e' he' => ?_
      · obtain ⟨i, e, he, he'⟩ := exists_getElem?_of_mem hlength hmem
        exact ihes e (List.mem_of_getElem? he) (hes i e e' he he')
      · have hsome : tail.isSome = true := by rw [htail, he', Option.isSome_some]
        obtain ⟨e, he⟩ := Option.isSome_iff_exists.1 hsome
        exact ihtail e he (ht e e' he he')
  | declaration _ ih =>
    cases h with
    | declaration _ he => exact .declaration (ih he)
  | evaluation _ ih => exact .evaluation (ih h)

end Tree

/-- The evaluation of both trees fails for the same reason, at places related by `ρ`. -/
inductive RunFault.Similar (ρ : Span → Span → Prop) : RunFault → RunFault → Prop where
  | error {cause s s'} (hs : ρ s s') : Similar ρ (.error ⟨cause, s⟩) (.error ⟨cause, s'⟩)
  | tooDeep : Similar ρ .tooDeep .tooDeep
  | unfinished : Similar ρ .unfinished .unfinished
  | unwritable {limit} : Similar ρ (.unwritable limit) (.unwritable limit)
  | noArithmetic {op} : Similar ρ (.noArithmetic op) (.noArithmetic op)

theorem RunFault.Similar.eq {e e' : RunFault} (h : e.Similar Eq e') : e = e' := by
  cases h with
  | error hs => rw [hs]
  | _ => rfl

/-- Relations of scopes that agree on the names in `N`. The number counts the blocks that both runs have
entered since they began. -/
structure Coupling (rel : Nat → Chain → Chain → Prop) (N : String → Prop) : Prop where
  find? : ∀ {k c c' n}, rel k c c' → N n → c.find? n = c'.find? n
  declare : ∀ {k c c' n} v, rel k c c' → N n → rel k (c.declare n v) (c'.declare n v)
  assign : ∀ {k c c' n i i'} v, rel k c c' → N n → c.owner? n = some i → c'.owner? n = some i' →
    rel k (c.assign i n v) (c'.assign i' n v)
  push : ∀ {k c c'}, rel k c c' → rel (k + 1) c.push c'.push
  pop : ∀ {k c c'}, rel (k + 1) c c' → rel k c.pop c'.pop

namespace Run

/-- How a run ends: with a value or with a fault. -/
def outcome {α : Type} : EStateM.Result RunFault Run α → Except RunFault α
  | .ok a _ => .ok a
  | .error e _ => .error e

/-- The scopes that a run leaves, however it ends. -/
def scopesLeft {α : Type} : EStateM.Result RunFault Run α → Chain
  | .ok _ r => r.scopes
  | .error _ r => r.scopes

/-- The nodes that both runs began last have spans related by `ρ`. -/
def AtSame (ρ : Span → Span → Prop) (r r' : Run) : Prop :=
  ∃ t t', r.current = some t ∧ r'.current = some t' ∧ ρ t.span t'.span

/-- Both steps have the same value, or they fail for the same reason; and the scopes they leave are
related by `R`. Under the condition `K` they end at nodes with related spans, and they do so in any case
where a fault of the evaluator itself is blamed on the current node. -/
inductive Ends (R : Chain → Chain → Prop) (ρ : Span → Span → Prop) (K : Prop) {α : Type} :
    EStateM.Result RunFault Run α → EStateM.Result RunFault Run α → Prop where
  | ok {a s s'} (hs : R s.scopes s'.scopes) (hat : K → AtSame ρ s s') : Ends R ρ K (.ok a s) (.ok a s')
  | error {e e' s s'} (he : e.Similar ρ e') (hs : R s.scopes s'.scopes)
      (hat : e.hostMessage?.isSome = true → AtSame ρ s s') : Ends R ρ K (.error e s) (.error e' s')

/-- In scopes related by `R`, both steps come to the same end. They end at nodes with related spans if they
begin at such nodes. -/
def Agree (R : Chain → Chain → Prop) (ρ : Span → Span → Prop) {α : Type} (m m' : RunM α) : Prop :=
  ∀ r r', R r.scopes r'.scopes → Ends R ρ (AtSame ρ r r') (m r) (m' r')

variable {R : Chain → Chain → Prop} {ρ : Span → Span → Prop} {K K' : Prop} {α β : Type}

theorem Ends.outcome_eq {x x' : EStateM.Result RunFault Run α}
    (h : Ends R Eq K x x') : outcome x = outcome x' := by
  cases h with
  | ok => rfl
  | error he => exact congrArg Except.error he.eq

theorem Ends.scopesLeft {x x' : EStateM.Result RunFault Run α} (h : Ends R ρ K x x') :
    R (scopesLeft x) (scopesLeft x') := by
  cases h with
  | ok hs => exact hs
  | error _ hs => exact hs

theorem Ends.mono {S : Chain → Chain → Prop} {x x' : EStateM.Result RunFault Run α}
    (h : Ends R ρ K x x') (hS : ∀ c c', R c c' → S c c') (hK : K' → K) : Ends S ρ K' x x' := by
  cases h with
  | ok hs hat => exact .ok (hS _ _ hs) fun hk => hat (hK hk)
  | error he hs hat => exact .error he (hS _ _ hs) hat

/-- Steps that go on from the same end. From there on the scopes may be related in another way. -/
theorem Ends.bind {S : Chain → Chain → Prop} {m m' : RunM α} {f f' : α → RunM β} {r r' : Run}
    (h : Ends R ρ K (m r) (m' r')) (hS : ∀ c c', R c c' → S c c')
    (hf : ∀ a q q', R q.scopes q'.scopes → (K → AtSame ρ q q') → Ends S ρ K' (f a q) (f' a q')) :
    Ends S ρ K' ((m >>= f) r) ((m' >>= f') r') := by
  rw [bind_run, bind_run]
  generalize m r = x at h
  generalize m' r' = x' at h
  cases h with
  | ok hs hat => exact hf _ _ _ hs hat
  | error he hs hat => exact .error he (hS _ _ hs) hat

/-- Nodes with related spans that are made current are where both runs are from then on. -/
theorem Ends.setCurrent {t t' : Tree} (hs : ρ t.span t'.span) {r r' : Run}
    (hr : R r.scopes r'.scopes) : Ends R ρ True (Run.setCurrent t r) (Run.setCurrent t' r') :=
  .ok hr fun _ => ⟨t, t', rfl, rfl, hs⟩

theorem Ends.inside {S : Chain → Chain → Prop} {m m' : RunM α} (r r' : Run)
    (h : Ends S ρ K (m { r with scopes := r.scopes.push }) (m' { r' with scopes := r'.scopes.push }))
    (hpop : ∀ c c', S c c' → R c.pop c'.pop) : Ends R ρ K (Run.inside m r) (Run.inside m' r') := by
  unfold Run.inside
  generalize m { r with scopes := r.scopes.push } = x at h
  generalize m' { r' with scopes := r'.scopes.push } = x' at h
  cases h with
  | ok hs hat => exact .ok (hpop _ _ hs) hat
  | error he hs hat => exact .error he (hpop _ _ hs) hat

namespace Agree

theorem pure (a : α) : Agree R ρ (Pure.pure a) (Pure.pure a) := fun _ _ h => .ok h fun hat => hat

theorem throw {e e' : RunFault} (he : e.Similar ρ e') (hhost : e.hostMessage? = none) :
    Agree R ρ (MonadExcept.throw e : RunM α) (MonadExcept.throw e') :=
  fun _ _ h => .error he h fun hsome => by rw [hhost] at hsome; cases hsome

theorem fail (cause : RuntimeCause) {s s' : Span} (hs : ρ s s') :
    Agree R ρ (Run.fail cause s : RunM α) (Run.fail cause s') := throw (.error hs) rfl

theorem note (n n' : Note) : Agree R ρ (Run.note n) (Run.note n') := fun _ _ h => .ok h fun hat => hat

theorem setCurrent {t t' : Tree} (hs : ρ t.span t'.span) :
    Agree R ρ (Run.setCurrent t) (Run.setCurrent t') :=
  fun _ _ hr => (Ends.setCurrent hs hr).mono (fun _ _ h => h) fun _ => trivial

/-- What is read of the states makes no difference for steps that agree in any case. -/
theorem read {f f' : Run → RunM α} (h : ∀ q q', Agree R ρ (f q) (f' q')) :
    Agree R ρ (get >>= f) (get >>= f') := fun r r' hr => h r r' r r' hr

theorem bind {m m' : RunM α} {f f' : α → RunM β} (hm : Agree R ρ m m')
    (hf : ∀ a, Agree R ρ (f a) (f' a)) : Agree R ρ (m >>= f) (m' >>= f') :=
  fun r r' hr => (hm r r' hr).bind (fun _ _ h => h) fun a q q' hq hat =>
    (hf a q q' hq).mono (fun _ _ h => h) hat

/-- What is done next at two nodes with related spans begins there. -/
theorem atNodes {t t' : Tree} {m m' : RunM α} (hs : ρ t.span t'.span)
    (h : ∀ r r', R r.scopes r'.scopes → AtSame ρ r r' → Ends R ρ True (m r) (m' r')) :
    Agree R ρ (do Run.setCurrent t; m) (do Run.setCurrent t'; m') := by
  intro r r' hr
  refine (Ends.setCurrent hs hr).bind (fun _ _ h => h) fun _ q q' hq hat => ?_
  exact (h q q' hq (hat trivial)).mono (fun _ _ h => h) fun _ => trivial

/-- The scopes in which a name is looked up are related. -/
theorem scopesFor {path path' : List Nat} {name name' : String} {f f' : Chain → RunM α}
    (h : ∀ c c', R c c' → Agree R ρ (f c) (f' c')) :
    Agree R ρ (Run.scopesFor path name >>= f) (Run.scopesFor path' name' >>= f') := by
  intro r r' hr
  have hends := h r.scopes r'.scopes hr
    ⟨r.scopes, r.current, r.journal.map (.lookUp path name (r.scopes.owner? name) :: ·)⟩
    ⟨r'.scopes, r'.current, r'.journal.map (.lookUp path' name' (r'.scopes.owner? name') :: ·)⟩ hr
  exact hends.mono (fun _ _ h => h) fun hat => hat

theorem inside {R' : Chain → Chain → Prop} {m m' : RunM α} (h : Agree R' ρ m m')
    (hpush : ∀ c c', R c c' → R' c.push c'.push) (hpop : ∀ c c', R' c c' → R c.pop c'.pop) :
    Agree R ρ (Run.inside m) (Run.inside m') := by
  intro r r' hr
  have hends := h { r with scopes := r.scopes.push } { r' with scopes := r'.scopes.push }
    (hpush _ _ hr)
  exact Ends.inside r r' hends hpop

/-- **Loop rule**: the loops go through the same rounds, and run out of them at nodes with related
spans. -/
theorem rounds {limits : Limits} {s s' : Span} {body body' : RunM Value} (hs : ρ s s')
    (hbody : Agree R ρ body body') (left done : Nat) {r r' : Run} (hr : R r.scopes r'.scopes)
    (hat : AtSame ρ r r') :
    Ends R ρ True (Evaluation.rounds limits s body left done r)
      (Evaluation.rounds limits s' body' left done r') := by
  induction left generalizing done r r' with
  | zero =>
    unfold Evaluation.rounds Evaluation.roundsSpent
    cases limits.loop with
    | none => exact .error .unfinished hr fun _ => hat
    | some limit =>
      dsimp only
      cases Numeral.isWritable limit with
      | false => exact .error .unwritable hr fun _ => hat
      | true => exact .error (.error hs) hr fun _ => hat
  | succ left ih =>
    refine Ends.bind (note _ _ r r' hr) (fun _ _ h => h) fun _ q q' hq hnote => ?_
    exact (hbody q q' hq).bind (fun _ _ h => h) fun _ o o' ho hbody => ih _ ho (hbody (hnote hat))

/-- Nesting that is too deep is an error at related places. -/
theorem boundedAt {s s' : Span} {m m' : RunM α} (hs : ρ s s') (h : Agree R ρ m m') :
    Agree R ρ (Run.boundedAt s m) (Run.boundedAt s' m') := by
  intro r r' hr
  have h := h r r' hr
  unfold Run.boundedAt
  generalize m r = x at h
  generalize m' r' = x' at h
  cases h with
  | ok hscopes hat => exact .ok hscopes hat
  | error he hscopes hat =>
    cases he with
    | error hs => exact .error (.error hs) hscopes hat
    | tooDeep => exact .error (.error hs) hscopes hat
    | unfinished => exact .error .unfinished hscopes hat
    | unwritable => exact .error .unwritable hscopes hat
    | noArithmetic => exact .error .noArithmetic hscopes hat

end Agree

end Run

namespace Evaluation

variable {rel : Nat → Chain → Chain → Prop} {N : String → Prop} {ρ : Span → Span → Prop}
  {below : Evaluation} {path path' : List Nat} {k : Nat}

theorem each_agree {R : Chain → Chain → Prop} {es es' : List Tree}
    (h : List.Forall₂ (fun e e' => ∀ p p', Agree R ρ (below p e) (below p' e')) es es')
    (index index' : Nat) : Agree R ρ (each below path index es) (each below path' index' es') := by
  induction h generalizing index index' with
  | nil => exact .pure _
  | cons he _ ih => exact (he _ _).bind fun _ => ih _ _

theorem statements_agree {R : Chain → Chain → Prop} {es es' : List Tree} {t t' : Option Tree}
    (hes : List.Forall₂ (fun e e' => ∀ p p', Agree R ρ (below p e) (below p' e')) es es')
    (hsome : t.isSome = t'.isSome)
    (ht : ∀ e e', t = some e → t' = some e' → ∀ p p', Agree R ρ (below p e) (below p' e')) :
    Agree R ρ (statements below path es t) (statements below path' es' t') := by
  refine (each_agree hes 0 0).bind fun _ => ?_
  cases t <;> cases t'
  · exact .pure _
  · cases hsome
  · cases hsome
  · exact ht _ _ rfl rfl _ _

theorem applyToNumbers_agree {R : Chain → Chain → Prop} {t t' : Tree} (hs : ρ t.span t'.span)
    (op : BinaryOperator) (x y : Float) :
    Agree R ρ (applyToNumbers t op x y) (applyToNumbers t' op x y) := by
  unfold applyToNumbers
  split
  · exact .fail _ hs
  · split
    · exact .pure _
    · refine Agree.atNodes hs fun r r' hr hat => ?_
      cases op.arithmetic? with
      | some f => exact .ok hr fun _ => hat
      | none => exact .error .noArithmetic hr fun _ => hat

theorem applyBinary_agree {R : Chain → Chain → Prop} {t t' : Tree} (hs : ρ t.span t'.span)
    (op : BinaryOperator) (a b : Value) :
    Agree R ρ (applyBinary t op a b) (applyBinary t' op a b) := by
  unfold applyBinary
  split
  · exact .pure _
  · exact .pure _
  · split
    · exact applyToNumbers_agree hs op _ _
    · exact .fail _ hs

theorem binary_agree {R : Chain → Chain → Prop} {t t' a a' b b' : Tree} {op : BinaryOperator}
    (hs : ρ t.span t'.span) (ha : ∀ p p', Agree R ρ (below p a) (below p' a'))
    (hb : ∀ p p', Agree R ρ (below p b) (below p' b')) :
    Agree R ρ (binary below path t op a b) (binary below path' t' op a' b') := by
  refine (ha _ _).bind fun v => ?_
  split
  · split
    · exact (hb _ _).bind fun _ => .pure _
    · exact .pure _
  · split
    · exact .pure _
    · exact (hb _ _).bind fun _ => .pure _
  · exact (hb _ _).bind fun w => applyBinary_agree hs op v w

theorem applyUnary_agree {R : Chain → Chain → Prop} {s s' : Span} (hs : ρ s s') (op : UnaryOperator)
    (a : Value) : Agree R ρ (applyUnary s op a) (applyUnary s' op a) := by
  unfold applyUnary
  split
  · exact .pure _
  · split
    · exact .pure _
    · exact .fail _ hs

theorem scopesFor_bind_run {α : Type} (path : List Nat) (name : String) (f : Chain → RunM α)
    (r : Run) :
    (scopesFor path name >>= f) r = f r.scopes
      { r with journal := r.journal.map (.lookUp path name (r.scopes.owner? name) :: ·) } :=
  rfl

theorem reference_agree (hC : Coupling rel N) {s s' : Span} {name : String} (hs : ρ s s')
    (hname : N name) : Agree (rel k) ρ (reference path s name) (reference path' s' name) := by
  refine Agree.scopesFor fun c c' hc => ?_
  rw [hC.find? hc hname]
  cases c'.find? name with
  | some v => exact .pure v
  | none => exact .fail _ hs

/-- The owners of a name are found before its value is known, and still own it afterwards. -/
theorem assignment_agree (hC : Coupling rel N) {s s' : Span} {name : String} {e e' : Tree}
    (hs : ρ (.ofLength s.start name.length) (.ofLength s'.start name.length)) (hname : N name)
    (he : ∀ p p', Agree (rel k) ρ (below p e) (below p' e'))
    (hkeeps : ∀ L p, Keeps L (below p e)) (hkeeps' : ∀ L p, Keeps L (below p e')) :
    Agree (rel k) ρ (assignment below path s name e) (assignment below path' s' name e') := by
  intro r r' hr
  have hvalue := hC.find? hr hname
  rw [assignment, assignment, scopesFor_bind_run, scopesFor_bind_run]
  cases hi : r.scopes.owner? name with
  | none =>
    have hi' : r'.scopes.owner? name = none := by
      rw [Chain.owner?_eq_none_iff, ← hvalue, ← Chain.owner?_eq_none_iff, hi]
    rw [hi']
    exact .error (.error hs) hr nofun
  | some i =>
    obtain ⟨i', hi'⟩ : ∃ i', r'.scopes.owner? name = some i' := by
      refine Option.ne_none_iff_exists'.1 fun hnone => ?_
      rw [Chain.owner?_eq_none_iff, ← hvalue, ← Chain.owner?_eq_none_iff, hi] at hnone
      cases hnone
    rw [hi']
    have store : ∀ journal journal' : Option (List Note),
        Ends (rel k) ρ (AtSame ρ r r')
          ((do
            let v ← below (0 :: path) e
            modify fun r => { r with scopes := r.scopes.assign i name v }
            return v : RunM Value) ⟨r.scopes, r.current, journal⟩)
          ((do
            let v ← below (0 :: path') e'
            modify fun r => { r with scopes := r.scopes.assign i' name v }
            return v : RunM Value) ⟨r'.scopes, r'.current, journal'⟩) := by
      intro journal journal'
      have h := he (0 :: path) (0 :: path') ⟨r.scopes, r.current, journal⟩
        ⟨r'.scopes, r'.current, journal'⟩ hr
      have hlayout := hkeeps r.scopes.layout (0 :: path) ⟨r.scopes, r.current, journal⟩ rfl
      have hlayout' := hkeeps' r'.scopes.layout (0 :: path') ⟨r'.scopes, r'.current, journal'⟩ rfl
      rw [bind_run, bind_run]
      generalize below (0 :: path) e ⟨r.scopes, r.current, journal⟩ = x at h hlayout
      generalize below (0 :: path') e' ⟨r'.scopes, r'.current, journal'⟩ = x' at h hlayout'
      cases h with
      | ok hscopes hat =>
        -- The value may have changed bindings, but no layout, so that both owners are still there.
        have howner := (Chain.owner?_congr hlayout).trans hi
        have howner' := (Chain.owner?_congr hlayout').trans hi'
        exact .ok (hC.assign _ hscopes hname howner howner') hat
      | error he hscopes hat => exact .error he hscopes hat
    exact store _ _

/-- Whether a binding is hidden is written down, but makes no difference. -/
theorem declare_run (name : String) (v : Value) (r : Run) :
    ∃ q, declare name v r = .ok .null q ∧ q.scopes = r.scopes.declare name v ∧
      q.current = r.current := by
  by_cases hshadows : r.scopes.shadows name = true
  · refine ⟨⟨r.scopes.declare name v, r.current, r.journal.map (.shadows name :: ·)⟩, ?_, rfl, rfl⟩
    change (if r.scopes.shadows name = true then _ else _ : RunM Value) r = _
    rw [if_pos hshadows]
    rfl
  · refine ⟨{ r with scopes := r.scopes.declare name v }, ?_, rfl, rfl⟩
    change (if r.scopes.shadows name = true then _ else _ : RunM Value) r = _
    rw [if_neg hshadows]
    rfl

theorem declare_agree (hC : Coupling rel N) {name : String} (hname : N name) (v : Value) :
    Agree (rel k) ρ (declare name v) (declare name v) := by
  intro r r' hr
  obtain ⟨q, hq, hscopes, hcurrent⟩ := declare_run name v r
  obtain ⟨q', hq', hscopes', hcurrent'⟩ := declare_run name v r'
  rw [hq, hq']
  refine .ok ?_ fun hat => ?_
  · rw [hscopes, hscopes']
    exact hC.declare v hr hname
  · rw [AtSame, hcurrent, hcurrent']
    exact hat

theorem block_agree (hC : Coupling rel N) {es es' : List Tree} {t t' : Option Tree}
    (hes : List.Forall₂ (fun e e' => ∀ p p', Agree (rel (k + 1)) ρ (below p e) (below p' e')) es es')
    (hsome : t.isSome = t'.isSome)
    (ht : ∀ e e', t = some e → t' = some e' →
      ∀ p p', Agree (rel (k + 1)) ρ (below p e) (below p' e')) :
    Agree (rel k) ρ (block below path es t) (block below path' es' t') := by
  refine Agree.read fun _ _ => (Agree.note _ _).bind fun _ => ?_
  exact Agree.inside (statements_agree hes hsome ht) (fun _ _ => hC.push) fun _ _ => hC.pop

end Evaluation

/-- **Simulation**: similar trees are evaluated alike in scopes that agree on the names in them. -/
theorem evaluationAt_agree {rel : Nat → Chain → Chain → Prop} {N : String → Prop}
    {ρ : Span → Span → Prop} (hC : Coupling rel N)
    (hρ : ∀ s s' n, ρ s s' → ρ (.ofLength s.start n) (.ofLength s'.start n)) (limits : Limits)
    (n : Nat) {role : Tree.Role} {t t' : Tree} (h : Tree.Plays role t) (ht : Tree.Similar ρ t t')
    (hN : ∀ name, t.Occurs name → N name) (k : Nat) (path path' : List Nat) :
    Agree (rel k) ρ (evaluationAt limits n path t) (evaluationAt limits n path' t') := by
  -- The induction is on the room, of which similar nodes leave the same below them; what a node does
  -- with its children is left to the rules above.
  induction n using Nat.strongRecOn generalizing role t t' k path path' with
  | ind n ih =>
    obtain _ | n := n
    · exact .throw .tooDeep rfl
    rw [evaluationAt_succ, evaluationAt_succ, ← ht.calls_eq]
    have child : ∀ {k : Nat} {u u' : Tree}, u ∈ t.children → Tree.Similar ρ u u' → ∀ p p',
        Agree (rel k) ρ (evaluationAt limits (n + 1 - t.calls) p u)
          (evaluationAt limits (n + 1 - t.calls) p' u') := by
      intro k u u' hu hsimilar p p'
      obtain ⟨_, hplays⟩ := h.exists_child hu
      exact ih _ (t.sub_calls_lt n) hplays hsimilar (fun name hname => hN name (.child hu hname)) k p p'
    have keeps : ∀ {e : Tree}, Tree.Plays .expression e → ∀ L p,
        Keeps L (evaluationAt limits (n + 1 - t.calls) p e) :=
      fun he L p => (evaluationAt_keeps limits _ he p L).1 (by decide)
    generalize evaluationAt limits (n + 1 - t.calls) = below at child keeps
    by_cases hloop : ∃ s b, t = .loop s b
    · obtain ⟨s, b, rfl⟩ := hloop
      cases ht with
      | loop hs hb =>
        exact (Agree.note _ _).bind fun _ => Agree.atNodes hs fun _ _ =>
          Agree.rounds hs (child (List.mem_singleton_self _) hb _ _) _ _
    refine (Agree.note _ _).bind fun _ => (Agree.setCurrent ht.span).bind fun _ => ?_
    cases ht with
    | literal => exact .pure _
    | reference hs => exact reference_agree hC hs (hN _ (.root rfl))
    | nameless hs => exact .fail _ hs
    | bare hs => exact .fail _ hs
    | declaration hs he =>
      exact (child (List.mem_singleton_self _) he _ _).bind fun v =>
        declare_agree hC (hN _ (.root rfl)) v
    | assignment hs he =>
      have hvalue := h.value_of_assignment
      exact assignment_agree hC (hρ _ _ _ hs) (hN _ (.root rfl))
        (child (List.mem_singleton_self _) he) (keeps hvalue) (keeps (he.plays hvalue))
    | binary hs ha hb =>
      exact binary_agree hs (child (List.mem_cons_self ..) ha)
        (child (List.mem_cons_of_mem _ (List.mem_singleton_self _)) hb)
    | unary hs ha =>
      exact (child (List.mem_singleton_self _) ha _ _).bind fun v => applyUnary_agree hs _ v
    | call hs hf =>
      exact (child (List.mem_cons_self ..) hf _ _).bind fun _ => .fail _ hs
    | @block _ _ es es' tail tail' hs hlength hes hsome htail =>
      refine block_agree hC (List.forall₂_iff_get.2 ⟨hlength, fun i hi hi' => ?_⟩) hsome ?_
      · have hmem : es.get ⟨i, hi⟩ ∈ es ++ tail.toList :=
          List.mem_append_left _ (List.get_mem es ⟨i, hi⟩)
        exact child hmem
          (hes i _ _ (List.getElem?_eq_getElem hi) (List.getElem?_eq_getElem hi'))
      · intro e e' he he'
        have hmem : e ∈ es ++ tail.toList :=
          List.mem_append_right es (Option.mem_toList.2 he)
        exact child hmem (htail e e' he he')
    | doBlock hs hb => exact child (List.mem_singleton_self _) hb _ _
    | @loop s _ b => exact absurd ⟨s, b, rfl⟩ hloop

end Curly
