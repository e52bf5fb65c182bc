import Curly.Proofs.Reading.Steps

/-!
# How readings fail

The counterpart of partial correctness: what holds whenever a reading fails of itself, and not because
the text has a fault where the next token would be drawn.

## Main definitions

* `Cursor.Fails`: every failure of a reading has a certain form.
-/

namespace Curly.Cursor

variable {α β : Type} {ts : List Token}

/-- Whenever `m` fails on the tokens `ts` of itself, its fault and the tokens it leaves satisfy `F`. -/
def Fails (m : ReadM α) (ts : List Token) (F : ReadFault → List Token → Prop) : Prop :=
  ∀ c e c', Regular c → c.rest = ts → m c = .error e c' → e.Drawn ∨ F e c'.rest

namespace Fails

variable {F F' : ReadFault → List Token → Prop}

theorem mono {m : ReadM α} (h : Fails m ts F) (hF : ∀ e rest, F e rest → F' e rest) :
    Fails m ts F' :=
  fun c e c' hr hc hm => (h c e c' hr hc hm).imp_right (hF e _)

theorem pure {a : α} : Fails (Pure.pure a : ReadM α) ts F := by
  intro c e c' _ _ hm
  change EStateM.Result.ok a c = .error e c' at hm
  cases hm

theorem throw {e : ReadFault} (h : F e ts) : Fails (MonadExcept.throw e : ReadM α) ts F := by
  intro c e' c' _ hc hm
  change EStateM.Result.error e c = .error e' c' at hm
  cases hm
  exact .inr (hc ▸ h)

theorem failAt {t : Token} {cause : SyntaxCause}
    (h : F (.syntactic { cause := cause, span := t.span }) ts) :
    Fails (Cursor.failAt t cause : ReadM α) ts F := throw h

theorem note {n : Note} : Fails (Cursor.note n) ts F := by
  intro c e c' _ _ hm
  change EStateM.Result.ok PUnit.unit { c with notes := n :: c.notes } =
    EStateM.Result.error e c' at hm
  cases hm

/-- A reading fails in its first part, or in its second part after a success of the first one. -/
theorem bind {m : ReadM α} {f : α → ReadM β} {P : α → List Token → Prop} (hm : Ensures m ts P)
    (hfails : Fails m ts F) (hf : ∀ a ts', P a ts' → Fails (f a) ts' F) : Fails (m >>= f) ts F := by
  intro c e c'' hr hc h
  rw [bind_run] at h
  split at h
  · next a c' heq =>
    obtain ⟨hr', hP⟩ := hm c a c' hr hc heq
    exact hf a _ hP c' e c'' hr' rfl h
  · next e' c' heq =>
    cases h
    exact hfails c e c'' hr hc heq

/-- A reading fails in its first part if its second part never fails. -/
theorem bind_of_ok {m : ReadM α} {f : α → ReadM β} (hm : Fails m ts F)
    (hf : ∀ a c, ∃ b c', f a c = .ok b c') : Fails (m >>= f) ts F := by
  intro c e c'' hr hc h
  rw [bind_run] at h
  split at h
  · next a c' _ =>
    obtain ⟨b, c₁, hb⟩ := hf a c'
    rw [hb] at h
    cases h
  · next heq =>
    cases h
    exact hm c e c'' hr hc heq

theorem peek : Fails Cursor.peek ts F := by
  intro c e c' hr hc hm
  unfold Cursor.peek at hm
  split at hm
  · cases hm
  · split at hm <;> cases hm <;> exact .inl trivial

theorem peek_bind {f : Token → ReadM β} (h : ∀ t rest, ts = t :: rest → Fails (f t) ts F) :
    Fails (Cursor.peek >>= f) ts F := by
  refine bind Ensures.peek peek ?_
  rintro t ts' ⟨rfl, rest, hts⟩
  exact h t rest hts

theorem nextIs_bind {kind : TokenKind} {f : Bool → ReadM β}
    (h : ∀ t rest, ts = t :: rest → Fails (f (t.kind == kind)) ts F) :
    Fails (Cursor.nextIs kind >>= f) ts F := by
  refine bind Ensures.nextIs (peek_bind fun _ _ _ => pure) ?_
  rintro b ts' ⟨rfl, t, rest, hts, rfl⟩
  exact h t rest hts

theorem advance {t : Token} {rest : List Token} : Fails Cursor.advance (t :: rest) F := by
  intro c e c' _ hc hm
  by_cases ht : t.kind = .endOfInput
  · rw [advance_endOfInput hc ht] at hm
    cases hm
  · rw [advance_cons hc ht] at hm
    cases hm

theorem advance_bind {t : Token} {rest : List Token} {f : Token → ReadM β}
    (ht : t.kind ≠ .endOfInput) (h : Fails (f t) rest F) :
    Fails (Cursor.advance >>= f) (t :: rest) F := by
  refine bind (Ensures.advance ht) advance ?_
  rintro u ts' ⟨rfl, rfl⟩
  exact h

theorem expect_bind {kind : TokenKind} {f : Token → ReadM β} (hkind : kind ≠ .endOfInput)
    (hother : ∀ t rest, ts = t :: rest → t.kind ≠ kind →
      F (.syntactic { cause := .expectedToken kind t, span := t.span }) ts)
    (h : ∀ t rest, ts = t :: rest → t.kind = kind → Fails (f t) rest F) :
    Fails (Cursor.expect kind >>= f) ts F := by
  refine bind (Ensures.expect hkind) ?_ ?_
  · refine peek_bind fun t rest hts => ?_
    split
    · subst hts
      exact advance
    · next ht => exact failAt (hother t rest hts ht)
  · rintro t ts' ⟨hts, ht⟩
    exact h t ts' hts ht

/-- **Loop rule**: every failure of a loop is one of its steps, or the repetitions are too many. -/
theorem repeatUpTo {step : α → ReadM (α ⊕ β)} {I : α → List Token → Prop}
    {P : β → List Token → Prop} (hstep : ∀ a ts, I a ts → Ensures (step a) ts (Either I P))
    (hfails : ∀ a ts, I a ts → Fails (step a) ts F) (hdeep : ∀ ts, F .tooDeep ts) (rounds : Nat)
    (a : α) (ts : List Token) (ha : I a ts) : Fails (Cursor.repeatUpTo step rounds a) ts F := by
  induction rounds generalizing a ts with
  | zero => exact throw (hdeep ts)
  | succ rounds ih =>
    refine bind (hstep a ts ha) (hfails a ts ha) ?_
    intro r ts' hr
    cases r with
    | inl a' => exact ih a' ts' hr
    | inr b => exact pure

end Fails

end Curly.Cursor
