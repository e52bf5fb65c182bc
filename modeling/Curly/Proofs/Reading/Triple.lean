import Curly.Tree.Cursor

/-!
# Specifications of readings

What a reading does is said by the tokens that are left before and after it. Nothing else about a
cursor has an influence on how a reading succeeds.

## Main definitions

* `Cursor.Ensures`: every success of a reading has a certain outcome.
* `Cursor.Reads`: a reading succeeds, with a certain outcome.
* `Cursor.Repeats`: a step is repeated a certain number of times.
-/

namespace Curly.Cursor

variable {α β : Type} {ts ts' ts'' : List Token}

/-- The text of the cursor goes on or fails, but does not yield one empty token for ever. -/
def Regular (c : Cursor) : Prop := ∀ t, c.ending ≠ .stalled t

/-- **Partial correctness**: whenever `m` succeeds on the tokens `ts`, its result and the tokens it
leaves satisfy `P`. -/
def Ensures (m : ReadM α) (ts : List Token) (P : α → List Token → Prop) : Prop :=
  ∀ c a c', Regular c → c.rest = ts → m c = .ok a c' → Regular c' ∧ P a c'.rest

/-- **Total correctness**: `m` succeeds on the tokens `ts` with the result `a` and leaves `ts'`. -/
def Reads (m : ReadM α) (ts : List Token) (a : α) (ts' : List Token) : Prop :=
  ∀ c : Cursor, c.rest = ts → ∃ c', m c = .ok a c' ∧ c'.rest = ts'

/-- `Repeats step a ts k a' ts'`: from `a` at `ts`, `k` repetitions of `step` come to `a'` at `ts'`. -/
inductive Repeats (step : α → ReadM (α ⊕ β)) (a : α) (ts : List Token) :
    Nat → α → List Token → Prop where
  | refl : Repeats step a ts 0 a ts
  | snoc {k a' ts' a'' ts''} (h : Repeats step a ts k a' ts')
      (hstep : Reads (step a') ts' (.inl a'') ts'') : Repeats step a ts (k + 1) a'' ts''

/-- The outcome of a step that is repeated: `I` if it goes on, `P` if it ends the loop. -/
def Either (I : α → List Token → Prop) (P : β → List Token → Prop) :
    α ⊕ β → List Token → Prop
  | .inl a, ts => I a ts
  | .inr b, ts => P b ts

/-- The result of a reading that succeeded. -/
def result? : EStateM.Result ReadFault Cursor α → Option α
  | .ok a _ => some a
  | .error _ _ => none

/-- The fault of a reading that failed. -/
def fault? : EStateM.Result ReadFault Cursor α → Option ReadFault
  | .ok _ _ => none
  | .error e _ => some e

theorem exists_of_result? {r : EStateM.Result ReadFault Cursor α} {a : α} (h : result? r = some a) :
    ∃ c, r = .ok a c := by
  cases r with
  | ok a' c =>
    cases h
    exact ⟨c, rfl⟩
  | error => cases h

/-- A reading that has a result succeeded. -/
theorem exists_ok {r : EStateM.Result ReadFault Cursor α} (h : (result? r).isSome = true) :
    ∃ a c, r = .ok a c := by
  obtain ⟨a, ha⟩ := Option.isSome_iff_exists.1 h
  exact ⟨a, exists_of_result? ha⟩

theorem exists_of_fault? {r : EStateM.Result ReadFault Cursor α} {e : ReadFault}
    (h : fault? r = some e) : ∃ c, r = .error e c := by
  cases r with
  | ok => cases h
  | error e' c =>
    cases h
    exact ⟨c, rfl⟩

theorem bind_eq_ok {m : ReadM α} {f : α → ReadM β} {c c'' : Cursor} {b : β}
    (h : (m >>= f) c = .ok b c'') : ∃ a c', m c = .ok a c' ∧ f a c' = .ok b c'' := by
  change EStateM.bind m f c = _ at h
  unfold EStateM.bind at h
  split at h
  · next a c' hm => exact ⟨a, c', hm, h⟩
  · exact absurd h (by simp)

theorem bind_of_ok {m : ReadM α} {f : α → ReadM β} {c c' : Cursor} {a : α} (h : m c = .ok a c') :
    (m >>= f) c = f a c' := by
  change EStateM.bind m f c = _
  simp only [EStateM.bind, h]

/-! ### Partial correctness -/

namespace Ensures

variable {P Q : α → List Token → Prop}

theorem mono {m : ReadM α} (h : Ensures m ts P) (hPQ : ∀ a ts', P a ts' → Q a ts') :
    Ensures m ts Q := by
  intro c a c' hr hc hm
  obtain ⟨hr', hP⟩ := h c a c' hr hc hm
  exact ⟨hr', hPQ _ _ hP⟩

theorem bind {m : ReadM α} {f : α → ReadM β} {R : β → List Token → Prop} (hm : Ensures m ts P)
    (hf : ∀ a ts', P a ts' → Ensures (f a) ts' R) : Ensures (m >>= f) ts R := by
  intro c b c'' hr hc h
  obtain ⟨a, c', hma, hfa⟩ := bind_eq_ok h
  obtain ⟨hr', hP⟩ := hm c a c' hr hc hma
  exact hf a _ hP c' b c'' hr' rfl hfa

theorem pure {a : α} (h : P a ts) : Ensures (Pure.pure a) ts P := by
  intro c a' c' hr hc hm
  change EStateM.Result.ok a c = .ok a' c' at hm
  cases hm
  exact ⟨hr, hc ▸ h⟩

theorem throw (e : ReadFault) : Ensures (MonadExcept.throw e) ts P := by
  intro c a c' _ _ hm
  change EStateM.Result.error e c = .ok a c' at hm
  cases hm

theorem failAt (t : Token) (cause : SyntaxCause) : Ensures (Cursor.failAt t cause) ts P := throw _

theorem note {n : Note} {P : PUnit → List Token → Prop} (h : P ⟨⟩ ts) :
    Ensures (Cursor.note n) ts P := by
  intro c a c' hr hc hm
  change EStateM.Result.ok ⟨⟩ { c with notes := n :: c.notes } = .ok a c' at hm
  cases hm
  exact ⟨hr, hc ▸ h⟩

/-- Only a token that is there can be looked at, and looking changes nothing. -/
theorem peek : Ensures Cursor.peek ts fun t ts' => ts' = ts ∧ ∃ rest, ts = t :: rest := by
  intro c t c' hr hc hm
  unfold Cursor.peek at hm
  split at hm
  · next u rest hu =>
    simp only [EStateM.Result.ok.injEq] at hm
    obtain ⟨rfl, rfl⟩ := hm
    have hrest : (if c.peeked then c else c.drawn u).rest = c.rest := by split <;> rfl
    refine ⟨?_, hrest.trans hc, rest, hc ▸ hu⟩
    split
    · exact hr
    · exact hr
  · split at hm
    · exact absurd hm (by simp)
    · exact absurd hm (by simp)
    · exact absurd hm (by simp)
    · next u hu => exact absurd hu (hr u)

theorem peek_bind {f : Token → ReadM β} {R : β → List Token → Prop}
    (h : ∀ t rest, ts = t :: rest → Ensures (f t) ts R) : Ensures (Cursor.peek >>= f) ts R := by
  refine bind peek ?_
  rintro t ts' ⟨rfl, rest, hts⟩
  exact h t rest hts

theorem nextIs {kind : TokenKind} : Ensures (Cursor.nextIs kind) ts fun b ts' =>
    ts' = ts ∧ ∃ t rest, ts = t :: rest ∧ b = (t.kind == kind) :=
  peek_bind fun t rest hts => pure ⟨rfl, t, rest, hts, rfl⟩

theorem nextIs_bind {kind : TokenKind} {f : Bool → ReadM β} {R : β → List Token → Prop}
    (h : ∀ t rest, ts = t :: rest → Ensures (f (t.kind == kind)) ts R) :
    Ensures (Cursor.nextIs kind >>= f) ts R := by
  refine bind nextIs ?_
  rintro b ts' ⟨rfl, t, rest, hts, rfl⟩
  exact h t rest hts

theorem advance {t : Token} {rest : List Token} (ht : t.kind ≠ .endOfInput) :
    Ensures Cursor.advance (t :: rest) fun u ts' => u = t ∧ ts' = rest := by
  intro c u c' hr hc hm
  rw [advance_cons hc ht] at hm
  simp only [EStateM.Result.ok.injEq] at hm
  obtain ⟨rfl, rfl⟩ := hm
  have hrest : (if c.peeked then c else c.drawn t).rest = t :: rest := by
    split
    · exact hc
    · exact hc
  refine ⟨?_, rfl, rest_taken hrest⟩
  intro u
  simp only [taken, hrest]
  split
  · exact hr u
  · exact hr u

theorem advance_bind {t : Token} {rest : List Token} {f : Token → ReadM β}
    {R : β → List Token → Prop} (ht : t.kind ≠ .endOfInput) (h : Ensures (f t) rest R) :
    Ensures (Cursor.advance >>= f) (t :: rest) R := by
  refine bind (advance ht) ?_
  rintro u ts' ⟨rfl, rfl⟩
  exact h

theorem expect {kind : TokenKind} (hkind : kind ≠ .endOfInput) :
    Ensures (Cursor.expect kind) ts fun t ts' => ts = t :: ts' ∧ t.kind = kind := by
  refine peek_bind fun t rest hts => ?_
  split
  · next ht =>
    subst hts
    refine (advance (ht ▸ hkind)).mono ?_
    rintro u ts' ⟨rfl, rfl⟩
    exact ⟨rfl, ht⟩
  · exact failAt _ _

theorem expect_bind {kind : TokenKind} {f : Token → ReadM β} {R : β → List Token → Prop}
    (hkind : kind ≠ .endOfInput)
    (h : ∀ t rest, ts = t :: rest → t.kind = kind → Ensures (f t) rest R) :
    Ensures (Cursor.expect kind >>= f) ts R := by
  refine bind (expect hkind) ?_
  rintro t ts' ⟨hts, ht⟩
  exact h t ts' hts ht

/-- **Loop rule**: what every step keeps as long as it goes on holds when the loop ends. -/
theorem repeatUpTo {step : α → ReadM (α ⊕ β)} {I : α → List Token → Prop}
    {P : β → List Token → Prop}
    (hstep : ∀ a ts, I a ts → Ensures (step a) ts (Either I P))
    (rounds : Nat) (a : α) (ts : List Token) (ha : I a ts) :
    Ensures (Cursor.repeatUpTo step rounds a) ts P := by
  induction rounds generalizing a ts with
  | zero => exact throw _
  | succ rounds ih =>
    refine bind (hstep a ts ha) ?_
    intro r ts' hr
    cases r with
    | inl a' => exact ih a' ts' hr
    | inr b => exact pure hr

end Ensures

/-! ### Total correctness -/

namespace Reads

variable {t : Token} {rest : List Token}

theorem pure {a : α} : Reads (Pure.pure a) ts a ts := fun c hc => ⟨c, rfl, hc⟩

theorem bind {m : ReadM α} {f : α → ReadM β} {a : α} {b : β} (hm : Reads m ts a ts')
    (hf : Reads (f a) ts' b ts'') : Reads (m >>= f) ts b ts'' := by
  intro c hc
  obtain ⟨c', hma, hc'⟩ := hm c hc
  obtain ⟨c'', hfa, hc''⟩ := hf c' hc'
  exact ⟨c'', (bind_of_ok hma).trans hfa, hc''⟩

theorem note {n : Note} : Reads (Cursor.note n) ts ⟨⟩ ts := fun c hc =>
  ⟨{ c with notes := n :: c.notes }, rfl, hc⟩

theorem peek : Reads Cursor.peek (t :: rest) t (t :: rest) := by
  intro c hc
  refine ⟨_, peek_cons hc, ?_⟩
  split
  · exact hc
  · exact hc

theorem nextIs (kind : TokenKind) :
    Reads (Cursor.nextIs kind) (t :: rest) (t.kind == kind) (t :: rest) :=
  peek.bind pure

theorem advance (ht : t.kind ≠ .endOfInput) : Reads Cursor.advance (t :: rest) t rest := by
  intro c hc
  refine ⟨_, advance_cons hc ht, rest_taken (t := t) ?_⟩
  split
  · exact hc
  · exact hc

theorem expect {kind : TokenKind} (ht : t.kind = kind) (hkind : kind ≠ .endOfInput) :
    Reads (Cursor.expect kind) (t :: rest) t rest := by
  refine peek.bind ?_
  rw [if_pos ht]
  exact advance (ht ▸ hkind)

theorem repeatUpTo_stop {step : α → ReadM (α ⊕ β)} {rounds : Nat} {a : α} {b : β}
    (h : Reads (step a) ts (.inr b) ts') (hrounds : 0 < rounds) :
    Reads (Cursor.repeatUpTo step rounds a) ts b ts' := by
  obtain ⟨rounds, rfl⟩ := Nat.exists_eq_succ_of_ne_zero (Nat.ne_of_gt hrounds)
  exact h.bind pure

theorem repeatUpTo_next {step : α → ReadM (α ⊕ β)} {rounds : Nat} {a a' : α} {b : β}
    (h : Reads (step a) ts (.inl a') ts')
    (hrest : Reads (Cursor.repeatUpTo step rounds a') ts' b ts'') :
    Reads (Cursor.repeatUpTo step (rounds + 1) a) ts b ts'' :=
  h.bind hrest

end Reads

namespace Repeats

variable {step : α → ReadM (α ⊕ β)} {a a' : α} {b : β} {k rounds : Nat}

/-- A loop goes through its repetitions first. -/
theorem reads_repeatUpTo (h : Repeats step a ts k a' ts')
    (hrest : Reads (repeatUpTo step rounds a') ts' b ts'') :
    Reads (repeatUpTo step (rounds + k) a) ts b ts'' := by
  induction h generalizing rounds with
  | refl => exact hrest
  | @snoc k a₁ ts₁ a₂ ts₂ _ hstep ih =>
    have := ih (Reads.repeatUpTo_next hstep hrest)
    rwa [Nat.add_right_comm] at this

/-- A loop that stops after its repetitions succeeds if it has rounds enough. -/
theorem reads (h : Repeats step a ts k a' ts') (hstop : Reads (step a') ts' (.inr b) ts'')
    (hk : k < rounds) : Reads (repeatUpTo step rounds a) ts b ts'' := by
  have := h.reads_repeatUpTo (Reads.repeatUpTo_stop hstop (Nat.sub_pos_of_lt hk))
  rwa [Nat.sub_add_cancel (Nat.le_of_lt hk)] at this

end Repeats

end Curly.Cursor
