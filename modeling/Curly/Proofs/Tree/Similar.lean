import Mathlib.Data.List.Forall2
import Curly.Tree.Basic

/-!
# Trees that differ in their spans

Two trees are similar if they are built alike and their spans are related node by node.

## Main definitions

* `Tree.Similar`: trees that are built alike, with spans in a given relation.
* `Tree.SameForm`: trees that are equal up to their spans.
-/

namespace Curly

namespace Tree

/-- `Similar ρ t u`: the trees are built alike, and the spans of their nodes are related by `ρ`. Lists of
trees are compared place by place. -/
inductive Similar (ρ : Span → Span → Prop) : Tree → Tree → Prop where
  | literal {s s' v} (hs : ρ s s') : Similar ρ (.literal s v) (.literal s' v)
  | reference {s s' n} (hs : ρ s s') : Similar ρ (.reference s n) (.reference s' n)
  | nameless {s s'} (hs : ρ s s') : Similar ρ (.nameless s) (.nameless s')
  | declaration {s s' n e e'} (hs : ρ s s') (he : Similar ρ e e') :
      Similar ρ (.declaration s n e) (.declaration s' n e')
  | assignment {s s' n e e'} (hs : ρ s s') (he : Similar ρ e e') :
      Similar ρ (.assignment s n e) (.assignment s' n e')
  | binary {s s' op a a' b b'} (hs : ρ s s') (ha : Similar ρ a a') (hb : Similar ρ b b') :
      Similar ρ (.binary s op a b) (.binary s' op a' b')
  | unary {s s' op a a'} (hs : ρ s s') (ha : Similar ρ a a') :
      Similar ρ (.unary s op a) (.unary s' op a')
  | call {s s' f f' args args'} (hs : ρ s s') (hf : Similar ρ f f')
      (hlength : args.length = args'.length)
      (hargs : ∀ (i : Nat) a a', args[i]? = some a → args'[i]? = some a' → Similar ρ a a') :
      Similar ρ (.call s f args) (.call s' f' args')
  | block {s s' es es' t t'} (hs : ρ s s') (hlength : es.length = es'.length)
      (hes : ∀ (i : Nat) a a', es[i]? = some a → es'[i]? = some a' → Similar ρ a a')
      (htail : t.isSome = t'.isSome) (ht : ∀ a a', t = some a → t' = some a' → Similar ρ a a') :
      Similar ρ (.block s es t) (.block s' es' t')
  | doBlock {s s' b b'} (hs : ρ s s') (hb : Similar ρ b b') :
      Similar ρ (.doBlock s b) (.doBlock s' b')
  | loop {s s' b b'} (hs : ρ s s') (hb : Similar ρ b b') : Similar ρ (.loop s b) (.loop s' b')
  | bare {s s'} (hs : ρ s s') : Similar ρ (.bare s) (.bare s')

/-- The trees are equal up to their spans. -/
def SameForm : Tree → Tree → Prop := Similar fun _ _ => True

/-- The tails of similar blocks. -/
inductive SimilarTails (ρ : Span → Span → Prop) : Option Tree → Option Tree → Prop where
  | none : SimilarTails ρ none none
  | some {t t'} (h : Similar ρ t t') : SimilarTails ρ (some t) (some t')

namespace Similar

variable {ρ ρ' ρ'' : Span → Span → Prop} {t u v : Tree}

theorem calls_eq (h : Similar ρ t u) : t.calls = u.calls := by
  cases h <;> rfl

theorem getElem? {es es' : List Tree} (h : List.Forall₂ (Similar ρ) es es') (i : Nat) (a a' : Tree)
    (ha : es[i]? = some a) (ha' : es'[i]? = some a') : Similar ρ a a' := by
  obtain ⟨hi, rfl⟩ := List.getElem?_eq_some_iff.1 ha
  obtain ⟨hi', rfl⟩ := List.getElem?_eq_some_iff.1 ha'
  exact h.get hi hi'

/-- Blocks are similar if their statements and their tails are. -/
theorem of_statements {s s' : Span} {es es' : List Tree} {t t' : Option Tree} (hs : ρ s s')
    (hes : List.Forall₂ (Similar ρ) es es') (ht : SimilarTails ρ t t') :
    Similar ρ (.block s es t) (.block s' es' t') := by
  refine .block hs hes.length_eq (getElem? hes) ?_ ?_
  · cases ht <;> rfl
  · rintro a a' rfl rfl
    cases ht with
    | some h => exact h

/-- What is similar to a block is a block with similar statements and a similar tail. -/
theorem exists_statements {s : Span} {es : List Tree} {t : Option Tree} {u : Tree}
    (h : Similar ρ (.block s es t) u) : ∃ s' es' t', u = .block s' es' t' ∧
      List.Forall₂ (Similar ρ) es es' ∧ SimilarTails ρ t t' := by
  cases h with
  | @block _ s' _ es' _ t' _ hlength hes htail ht =>
    refine ⟨s', es', t', rfl, List.forall₂_iff_get.2 ⟨hlength, fun i hi hi' => ?_⟩, ?_⟩
    · exact hes i _ _ (List.getElem?_eq_getElem hi) (List.getElem?_eq_getElem hi')
    · cases t <;> cases t'
      · exact .none
      · cases htail
      · cases htail
      · exact .some (ht _ _ rfl rfl)

/-- Calls are similar if what is called and the arguments are. -/
theorem of_arguments {s s' : Span} {f f' : Tree} {args args' : List Tree} (hs : ρ s s')
    (hf : Similar ρ f f') (hargs : List.Forall₂ (Similar ρ) args args') :
    Similar ρ (.call s f args) (.call s' f' args') :=
  .call hs hf hargs.length_eq (getElem? hargs)

theorem span (h : Similar ρ t u) : ρ t.span u.span := by
  cases h <;> assumption

theorem withSpan {s s' : Span} (h : Similar ρ t u) (hs : ρ s s') :
    Similar ρ (t.withSpan s) (u.withSpan s') := by
  cases h <;> constructor <;> assumption

theorem refl (hρ : ∀ s, ρ s s) : ∀ t : Tree, Similar ρ t t
  | .literal .. => .literal (hρ _)
  | .reference .. => .reference (hρ _)
  | .nameless _ => .nameless (hρ _)
  | .declaration _ _ e => .declaration (hρ _) (refl hρ e)
  | .assignment _ _ e => .assignment (hρ _) (refl hρ e)
  | .binary _ _ a b => .binary (hρ _) (refl hρ a) (refl hρ b)
  | .unary _ _ a => .unary (hρ _) (refl hρ a)
  | .call _ f args => by
    refine .call (hρ _) (refl hρ f) rfl fun i a a' ha ha' => ?_
    cases ha.symm.trans ha'
    have := List.sizeOf_lt_of_mem (List.mem_of_getElem? ha)
    exact refl hρ a
  | .block _ es t => by
    refine .block (hρ _) rfl (fun i a a' ha ha' => ?_) rfl fun a a' ha ha' => ?_
    · cases ha.symm.trans ha'
      have := List.sizeOf_lt_of_mem (List.mem_of_getElem? ha)
      exact refl hρ a
    · cases ha.symm.trans ha'
      subst ha
      exact refl hρ a
  | .doBlock _ b => .doBlock (hρ _) (refl hρ b)
  | .loop _ b => .loop (hρ _) (refl hρ b)
  | .bare _ => .bare (hρ _)

theorem symm (h : Similar ρ t u) (hρ : ∀ s s', ρ s s' → ρ' s' s) : Similar ρ' u t := by
  induction h with
  | literal hs => exact .literal (hρ _ _ hs)
  | reference hs => exact .reference (hρ _ _ hs)
  | nameless hs => exact .nameless (hρ _ _ hs)
  | declaration hs _ ih => exact .declaration (hρ _ _ hs) ih
  | assignment hs _ ih => exact .assignment (hρ _ _ hs) ih
  | binary hs _ _ iha ihb => exact .binary (hρ _ _ hs) iha ihb
  | unary hs _ ih => exact .unary (hρ _ _ hs) ih
  | call hs _ hlength _ ihf ihargs =>
    exact .call (hρ _ _ hs) ihf hlength.symm fun i a a' ha ha' => ihargs i a' a ha' ha
  | block hs hlength _ htail _ ihes iht =>
    exact .block (hρ _ _ hs) hlength.symm (fun i a a' ha ha' => ihes i a' a ha' ha) htail.symm
      fun a a' ha ha' => iht a' a ha' ha
  | doBlock hs _ ih => exact .doBlock (hρ _ _ hs) ih
  | loop hs _ ih => exact .loop (hρ _ _ hs) ih
  | bare hs => exact .bare (hρ _ _ hs)

theorem trans (h : Similar ρ t u) (h' : Similar ρ' u v)
    (hρ : ∀ s s' s'', ρ s s' → ρ' s' s'' → ρ'' s s'') : Similar ρ'' t v := by
  induction h generalizing v with
  | literal hs =>
    cases h' with
    | literal hs' => exact .literal (hρ _ _ _ hs hs')
  | reference hs =>
    cases h' with
    | reference hs' => exact .reference (hρ _ _ _ hs hs')
  | nameless hs =>
    cases h' with
    | nameless hs' => exact .nameless (hρ _ _ _ hs hs')
  | declaration hs _ ih =>
    cases h' with
    | declaration hs' he => exact .declaration (hρ _ _ _ hs hs') (ih he)
  | assignment hs _ ih =>
    cases h' with
    | assignment hs' he => exact .assignment (hρ _ _ _ hs hs') (ih he)
  | binary hs _ _ iha ihb =>
    cases h' with
    | binary hs' ha hb => exact .binary (hρ _ _ _ hs hs') (iha ha) (ihb hb)
  | unary hs _ ih =>
    cases h' with
    | unary hs' ha => exact .unary (hρ _ _ _ hs hs') (ih ha)
  | @call _ _ _ _ args args' hs _ hlength _ ihf ihargs =>
    cases h' with
    | call hs' hf hlength' hargs =>
      refine .call (hρ _ _ _ hs hs') (ihf hf) (hlength.trans hlength') fun i a a'' ha ha'' => ?_
      -- The list in the middle is as long as the others, so that it has an argument here as well.
      have hi : i < args'.length := hlength ▸ (List.getElem?_eq_some_iff.1 ha).1
      have ha' := List.getElem?_eq_getElem hi
      exact ihargs i a _ ha ha' (hargs i _ a'' ha' ha'')
  | @block _ _ es es' t t' hs hlength _ htail _ ihes iht =>
    cases h' with
    | block hs' hlength' hes htail' ht =>
      refine .block (hρ _ _ _ hs hs') (hlength.trans hlength') (fun i a a'' ha ha'' => ?_)
        (htail.trans htail') fun a a'' ha ha'' => ?_
      · have hi : i < es'.length := hlength ▸ (List.getElem?_eq_some_iff.1 ha).1
        have ha' := List.getElem?_eq_getElem hi
        exact ihes i a _ ha ha' (hes i _ a'' ha' ha'')
      · have hsome : t'.isSome = true := by rw [← htail, ha, Option.isSome_some]
        obtain ⟨a', ha'⟩ := Option.isSome_iff_exists.1 hsome
        exact iht a a' ha ha' (ht a' a'' ha' ha'')
  | doBlock hs _ ih =>
    cases h' with
    | doBlock hs' hb => exact .doBlock (hρ _ _ _ hs hs') (ih hb)
  | loop hs _ ih =>
    cases h' with
    | loop hs' hb => exact .loop (hρ _ _ _ hs hs') (ih hb)
  | bare hs =>
    cases h' with
    | bare hs' => exact .bare (hρ _ _ _ hs hs')

end Similar

theorem SimilarTails.symm {ρ ρ' : Span → Span → Prop} {t t' : Option Tree} (h : SimilarTails ρ t t')
    (hρ : ∀ s s', ρ s s' → ρ' s' s) : SimilarTails ρ' t' t := by
  cases h with
  | none => exact .none
  | some h => exact .some (h.symm hρ)

theorem SimilarTails.refl {ρ : Span → Span → Prop} (hρ : ∀ s, ρ s s) (t : Option Tree) :
    SimilarTails ρ t t := by
  cases t with
  | none => exact .none
  | some t => exact .some (.refl hρ t)

end Tree

end Curly
