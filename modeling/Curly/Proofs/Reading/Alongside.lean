import Curly.Proofs.Reading.Triple
import Curly.Proofs.Token.Gist
import Curly.Proofs.UpTo

/-!
# Two readings side by side

Two readings of tokens that match come to the same end: both succeed, or both fail for the same reason and
at tokens that match.

## Main definitions

* `SyntaxCause.Alike`, `ReadFault.Alike`: faults for the same reason.
* `Cursor.Fare`: how two readings end that come to the same end.
* `Cursor.Alongside`: two readings that come to the same end on given tokens.
-/

namespace Curly

/-- The token sequences do not fit for the same reason, and the tokens that do not fit are related
by `K`. -/
inductive SyntaxCause.Alike (K : Token → Token → Prop) : SyntaxCause → SyntaxCause → Prop where
  | expectedToken (kind) {t t'} (ht : K t t') : Alike K (.expectedToken kind t) (.expectedToken kind t')
  | expectedDeclaration {t t'} (ht : K t t') : Alike K (.expectedDeclaration t) (.expectedDeclaration t')
  | malformedDeclaration {t t'} (ht : K t t') :
      Alike K (.malformedDeclaration t) (.malformedDeclaration t')
  | expectedEndOfStatement {t t'} (ht : K t t') :
      Alike K (.expectedEndOfStatement t) (.expectedEndOfStatement t')
  | expectedEndOfArgument {t t'} (ht : K t t') :
      Alike K (.expectedEndOfArgument t) (.expectedEndOfArgument t')
  | expectedExpression {t t'} (ht : K t t') : Alike K (.expectedExpression t) (.expectedExpression t')
  | missingExpression : Alike K .missingExpression .missingExpression
  | unclosed (opener) : Alike K (.unclosed opener) (.unclosed opener)
  | invalidTarget : Alike K .invalidTarget .invalidTarget
  | misplacedDeclaration : Alike K .misplacedDeclaration .misplacedDeclaration
  | reservedFunction : Alike K .reservedFunction .reservedFunction

/-- Both faults are met for the same reason. If tokens do not fit, this shows at tokens related by
`K`. -/
inductive ReadFault.Alike (K : Token → Token → Prop) : ReadFault → ReadFault → Prop where
  | syntactic {t t' cause cause'} (ht : K t t') (hc : SyntaxCause.Alike K cause cause') :
      Alike K (.syntactic ⟨cause, t.span⟩) (.syntactic ⟨cause', t'.span⟩)
  | other {e} (he : ∀ s, e ≠ .syntactic s) : Alike K e e

theorem SyntaxCause.Alike.eq {cause cause' : SyntaxCause} (h : Alike Eq cause cause') :
    cause = cause' := by
  cases h with
  | expectedToken _ ht => rw [ht]
  | expectedDeclaration ht | malformedDeclaration ht | expectedEndOfStatement ht
  | expectedEndOfArgument ht | expectedExpression ht => rw [ht]
  | _ => rfl

theorem ReadFault.Alike.eq {e e' : ReadFault} (h : e.Alike Eq e') : e = e' := by
  cases h with
  | syntactic ht hc => rw [ht, hc.eq]
  | other => rfl

namespace Cursor

variable {K : Token → Token → Prop} {α α' β β' : Type} {ts ts' us us' : List Token}

/-- Both readings succeed, their results and the tokens they leave are related by `Q`, and they leave at
most `n` and `n'` tokens; or both fail for the same reason. -/
inductive Fare (K : Token → Token → Prop) (n n' : Nat) (Q : α → α' → List Token → List Token → Prop) :
    EStateM.Result ReadFault Cursor α → EStateM.Result ReadFault Cursor α' → Prop where
  | ok {a a' c c'} (hr : Regular c) (hending : c.ending = c'.ending) (hn : c.rest.length ≤ n)
      (hn' : c'.rest.length ≤ n') (h : Q a a' c.rest c'.rest) : Fare K n n' Q (.ok a c) (.ok a' c')
  | error {e e' c c'} (he : e.Alike K e') : Fare K n n' Q (.error e c) (.error e' c')

/-- Of the tokens `ts` and `ts'`, before the same ending, both readings come to the same end. -/
def Alongside (K : Token → Token → Prop) (m : ReadM α) (m' : ReadM α') (ts ts' : List Token)
    (Q : α → α' → List Token → List Token → Prop) : Prop :=
  ∀ c c', Regular c → c.ending = c'.ending → c.rest = ts → c'.rest = ts' →
    Fare K ts.length ts'.length Q (m c) (m' c')

/-- How two steps of loops end that go on together and stop together. A step that goes on takes a
token. -/
inductive Onward (I : α → α' → List Token → List Token → Prop)
    (Q : β → β' → List Token → List Token → Prop) (n n' : Nat) :
    α ⊕ β → α' ⊕ β' → List Token → List Token → Prop where
  | next {a a' us us'} (h : I a a' us us') (hn : us.length < n) (hn' : us'.length < n') :
      Onward I Q n n' (.inl a) (.inl a') us us'
  | stop {b b' us us'} (h : Q b b' us us') : Onward I Q n n' (.inr b) (.inr b') us us'

/-- The cursor after looking at `t`, the first of the tokens that are left. -/
def looked (t : Token) (c : Cursor) : Cursor := if c.peeked then c else c.drawn t

@[simp] theorem rest_looked (t : Token) (c : Cursor) : (c.looked t).rest = c.rest := by
  unfold looked
  split <;> rfl

@[simp] theorem ending_looked (t : Token) (c : Cursor) : (c.looked t).ending = c.ending := by
  unfold looked
  split <;> rfl

theorem peek_looked {c : Cursor} {t : Token} {us : List Token} (hc : c.rest = t :: us) :
    peek c = .ok t (c.looked t) := peek_cons hc

theorem nextIs_looked {c : Cursor} {t : Token} {us : List Token} (hc : c.rest = t :: us)
    (kind : TokenKind) : nextIs kind c = .ok (t.kind == kind) (c.looked t) :=
  bind_of_ok (peek_looked hc)

theorem advance_looked {c : Cursor} {t : Token} {us : List Token} (hc : c.rest = t :: us)
    (ht : t.kind ≠ .endOfInput) : advance c = .ok t (c.looked t).taken := advance_cons hc ht

@[simp] theorem ending_taken (c : Cursor) : c.taken.ending = c.ending := by
  unfold taken
  split <;> rfl

/-- Behind the last token the ending is met. -/
theorem peek_nil {c c' : Cursor} (hr : Regular c) (hending : c.ending = c'.ending) (hc : c.rest = [])
    (hc' : c'.rest = []) :
    ∃ e d d', peek c = .error e d ∧ peek c' = .error e d' ∧ ∀ s, e ≠ .syntactic s := by
  cases hend : c.ending with
  | exhausted =>
    have hend' : c'.ending = .exhausted := hending.symm.trans hend
    refine ⟨.exhausted, c, c', peek_of_exhausted hc hend, peek_of_exhausted hc' hend', ?_⟩
    rintro s ⟨⟩
  | failed offset e =>
    have hend' : c'.ending = .failed offset e := hending.symm.trans hend
    refine ⟨.lexical e, _, _, peek_of_failed hc hend, peek_of_failed hc' hend', ?_⟩
    rintro s ⟨⟩
  | unmatched offset =>
    have hpeek : ∀ {c : Cursor}, c.rest = [] → c.ending = .unmatched offset →
        peek c = .error .unmatched (c.failedAt offset) := by
      intro c hc hend
      simp only [peek, hc, hend]
    refine ⟨.unmatched, _, _, hpeek hc hend, hpeek hc' (hending.symm.trans hend), ?_⟩
    rintro s ⟨⟩
  | stalled t => exact absurd hend (hr t)

theorem Fare.mono {n n' k k' : Nat} {P Q : α → α' → List Token → List Token → Prop}
    {r : EStateM.Result ReadFault Cursor α} {r' : EStateM.Result ReadFault Cursor α'}
    (h : Fare K n n' P r r') (hn : n ≤ k) (hn' : n' ≤ k')
    (hPQ : ∀ a a' us us', us.length ≤ n → us'.length ≤ n' → P a a' us us' → Q a a' us us') :
    Fare K k k' Q r r' := by
  cases h with
  | ok hr hending hm hm' h =>
    exact .ok hr hending (Nat.le_trans hm hn) (Nat.le_trans hm' hn') (hPQ _ _ _ _ hm hm' h)
  | error he => exact .error he

namespace Alongside

variable {P Q : α → α' → List Token → List Token → Prop}

theorem mono {m : ReadM α} {m' : ReadM α'} (h : Alongside K m m' ts ts' P)
    (hPQ : ∀ a a' us us', P a a' us us' → Q a a' us us') : Alongside K m m' ts ts' Q :=
  fun c c' hr hending hc hc' => (h c c' hr hending hc hc').mono (Nat.le_refl _) (Nat.le_refl _)
    fun a a' us us' _ _ => hPQ a a' us us'

/-- A reading does not add tokens. -/
theorem bounded {m : ReadM α} {m' : ReadM α'} (h : Alongside K m m' ts ts' P) :
    Alongside K m m' ts ts' fun a a' us us' =>
      us.length ≤ ts.length ∧ us'.length ≤ ts'.length ∧ P a a' us us' :=
  fun c c' hr hending hc hc' => (h c c' hr hending hc hc').mono (Nat.le_refl _) (Nat.le_refl _)
    fun _ _ _ _ hn hn' h => ⟨hn, hn', h⟩

theorem bind {m : ReadM α} {m' : ReadM α'} {f : α → ReadM β} {f' : α' → ReadM β'}
    {R : β → β' → List Token → List Token → Prop} (hm : Alongside K m m' ts ts' P)
    (hf : ∀ a a' us us', P a a' us us' → Alongside K (f a) (f' a') us us' R) :
    Alongside K (m >>= f) (m' >>= f') ts ts' R := by
  intro c c' hr hending hc hc'
  have h := hm c c' hr hending hc hc'
  rw [bind_run, bind_run]
  generalize m c = r at h
  generalize m' c' = r' at h
  cases h with
  | ok hr hending hn hn' h =>
    exact (hf _ _ _ _ h _ _ hr hending rfl rfl).mono hn hn' fun _ _ _ _ _ _ h => h
  | error he => exact .error he

theorem pure {a : α} {a' : α'} (h : Q a a' ts ts') :
    Alongside K (Pure.pure a) (Pure.pure a') ts ts' Q := by
  rintro c c' hr hending rfl rfl
  exact .ok hr hending (Nat.le_refl _) (Nat.le_refl _) h

theorem throw {e e' : ReadFault} (he : e.Alike K e') :
    Alongside K (MonadExcept.throw e) (MonadExcept.throw e') ts ts' Q :=
  fun _ _ _ _ _ _ => .error he

theorem failAt {t t' : Token} {cause cause' : SyntaxCause} (ht : t.Paired K t')
    (hc : cause.Alike K cause') :
    Alongside K (Cursor.failAt t cause) (Cursor.failAt t' cause') ts ts' Q :=
  throw (.syntactic ht.related hc)

theorem note {n n' : Note} {Q : PUnit → PUnit → List Token → List Token → Prop}
    (h : Q ⟨⟩ ⟨⟩ ts ts') : Alongside K (Cursor.note n) (Cursor.note n') ts ts' Q := by
  rintro c c' hr hending rfl rfl
  exact .ok hr hending (Nat.le_refl _) (Nat.le_refl _) h

/-- What is known of either reading by itself holds of both. -/
theorem and_ensures {m : ReadM α} {m' : ReadM α'} {R : α → List Token → Prop}
    {R' : α' → List Token → Prop} (h : Alongside K m m' ts ts' P) (hm : Ensures m ts R)
    (hm' : Ensures m' ts' R') :
    Alongside K m m' ts ts' fun a a' us us' => P a a' us us' ∧ R a us ∧ R' a' us' := by
  intro c c' hr hending hc hc'
  have hfare := h c c' hr hending hc hc'
  have hr' : Regular c' := fun t => hending ▸ hr t
  have hright := hm c
  have hright' := hm' c'
  generalize m c = r at hfare hright
  generalize m' c' = r' at hfare hright'
  cases hfare with
  | ok hr₁ hending hn hn' h =>
    exact .ok hr₁ hending hn hn' ⟨h, (hright _ _ hr hc rfl).2, (hright' _ _ hr' hc' rfl).2⟩
  | error he => exact .error he

/-- Both readings look at tokens that match, or meet the same fault behind the last token. -/
theorem peek_bind {f : Token → ReadM β} {f' : Token → ReadM β'}
    {R : β → β' → List Token → List Token → Prop} (h : Matches K false ts ts')
    (hf : ∀ t t' us us', ts = t :: us → ts' = t' :: us' → t.Paired K t' →
      Alongside K (f t) (f' t') ts ts' R) :
    Alongside K (Cursor.peek >>= f) (Cursor.peek >>= f') ts ts' R := by
  intro c c' hr hending hc hc'
  cases ts with
  | nil =>
    obtain rfl := h.eq_nil
    obtain ⟨e, d, d', hpeek, hpeek', he⟩ := peek_nil hr hending hc hc'
    rw [bind_run, bind_run, hpeek, hpeek']
    exact .error (.other he)
  | cons t us =>
    obtain ⟨t', us', rfl⟩ := h.exists_cons
    rw [bind_of_ok (peek_looked hc), bind_of_ok (peek_looked hc')]
    refine hf t t' us us' rfl rfl h.cons.1 _ _ (fun u => ?_) ?_ ?_ ?_
    · rw [ending_looked]
      exact hr u
    · rw [ending_looked, ending_looked, hending]
    · rw [rest_looked, hc]
    · rw [rest_looked, hc']

theorem nextIs_bind {kind : TokenKind} (hk : kind.hasAlias = false) {f : Bool → ReadM β}
    {f' : Bool → ReadM β'} {R : β → β' → List Token → List Token → Prop} (h : Matches K false ts ts')
    (hf : ∀ t t' us us', ts = t :: us → ts' = t' :: us' → t.Paired K t' →
      Alongside K (f (t.kind == kind)) (f' (t.kind == kind)) ts ts' R) :
    Alongside K (Cursor.nextIs kind >>= f) (Cursor.nextIs kind >>= f') ts ts' R := by
  unfold Cursor.nextIs
  rw [bind_assoc, bind_assoc]
  refine peek_bind h fun t t' us us' hts hts' ht => ?_
  rw [pure_bind, pure_bind, ← ht.kind.beq_eq hk]
  exact hf t t' us us' hts hts' ht

theorem advance_bind {t t' : Token} {f : Token → ReadM β} {f' : Token → ReadM β'}
    {R : β → β' → List Token → List Token → Prop} (ht : t.Paired K t') (hk : t.kind ≠ .endOfInput)
    (hf : Alongside K (f t) (f' t') us us' R) :
    Alongside K (Cursor.advance >>= f) (Cursor.advance >>= f') (t :: us) (t' :: us') R := by
  intro c c' hr hending hc hc'
  have hk' := ht.kind_ne hk rfl
  rw [bind_of_ok (advance_looked hc hk), bind_of_ok (advance_looked hc' hk')]
  have hrest := (rest_looked t c).trans hc
  have hrest' := (rest_looked t' c').trans hc'
  refine (hf _ _ (fun u => ?_) ?_ (rest_taken hrest) (rest_taken hrest')).mono
    (Nat.le_succ _) (Nat.le_succ _) fun _ _ _ _ _ _ h => h
  · rw [ending_taken, ending_looked]
    exact hr u
  · rw [ending_taken, ending_taken, ending_looked, ending_looked, hending]

theorem expect_bind {kind : TokenKind} (hk : kind.hasAlias = false) (hinput : kind ≠ .endOfInput)
    {f : Token → ReadM β} {f' : Token → ReadM β'} {R : β → β' → List Token → List Token → Prop}
    (h : Matches K false ts ts')
    (hf : ∀ t t' us us', ts = t :: us → ts' = t' :: us' → t.Paired K t' → t.kind = kind →
      Alongside K (f t) (f' t') us us' R) :
    Alongside K (Cursor.expect kind >>= f) (Cursor.expect kind >>= f') ts ts' R := by
  unfold Cursor.expect
  rw [bind_assoc, bind_assoc]
  refine peek_bind h fun t t' us us' hts hts' ht => ?_
  by_cases hkind : t.kind = kind
  · rw [if_pos hkind, if_pos (ht.kind_eq hkind hk)]
    subst hts
    subst hts'
    exact advance_bind ht (hkind ▸ hinput) (hf t t' us us' rfl rfl ht hkind)
  · rw [if_neg hkind, if_neg (ht.kind_ne hkind hk)]
    exact throw (.syntactic ht.related (.expectedToken kind ht.related))

/-- A reading that begins with a certain token takes at least this one. -/
theorem expect_bind_lt {kind : TokenKind} (hk : kind.hasAlias = false) (hinput : kind ≠ .endOfInput)
    {f : Token → ReadM β} {f' : Token → ReadM β'} {R : β → β' → List Token → List Token → Prop}
    (h : Matches K false ts ts')
    (hf : ∀ t t' us us', ts = t :: us → ts' = t' :: us' → t.Paired K t' → t.kind = kind →
      Alongside K (f t) (f' t') us us' R) :
    Alongside K (Cursor.expect kind >>= f) (Cursor.expect kind >>= f') ts ts' fun b b' us us' =>
      us.length < ts.length ∧ us'.length < ts'.length ∧ R b b' us us' := by
  refine expect_bind hk hinput h fun t t' us us' hts hts' ht hkind => ?_
  refine (hf t t' us us' hts hts' ht hkind).bounded.mono ?_
  rintro b b' vs vs' ⟨hle, hle', hb⟩
  subst hts
  subst hts'
  exact ⟨Nat.lt_succ_of_le hle, Nat.lt_succ_of_le hle', hb⟩

/-- **Loop rule**: the loops go through the same rounds, of which there are enough on both sides. -/
theorem repeatUpTo {step : α → ReadM (α ⊕ β)} {step' : α' → ReadM (α' ⊕ β')}
    {I : α → α' → List Token → List Token → Prop} {R : β → β' → List Token → List Token → Prop}
    (hstep : ∀ a a' us us', I a a' us us' →
      Alongside K (step a) (step' a') us us' (Onward I R us.length us'.length))
    {rounds rounds' : Nat} {a : α} {a' : α'} (h : ts.length < rounds) (h' : ts'.length < rounds')
    (ha : I a a' ts ts') :
    Alongside K (Cursor.repeatUpTo step rounds a) (Cursor.repeatUpTo step' rounds' a') ts ts' R := by
  -- Every round that is not the last takes a token on both sides, so that neither bound is met.
  induction rounds generalizing rounds' a a' ts ts' with
  | zero => omega
  | succ rounds ih =>
    obtain ⟨rounds', rfl⟩ : ∃ k, rounds' = k + 1 := ⟨rounds' - 1, by omega⟩
    refine bind (hstep a a' ts ts' ha) fun r r' us us' hr => ?_
    cases hr with
    | next hI hn hn' => exact ih (by omega) (by omega) hI
    | stop hR => exact pure hR

end Alongside

end Cursor

end Curly
