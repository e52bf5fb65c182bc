import Curly.Proofs.Reading.Triple
import Curly.Proofs.UpTo
import Curly.Tree.Unit

/-!
# What readings are made of

Every rule is put together from looking at tokens, taking them, writing something down, and failing. So
readings go through the tokens from left to right, take no end of input, leave alone what comes after
the tokens, and know nothing of the tokens behind the one they look at.

## Main definitions

* `Cursor.Steps`: a reading that is put together from the primitives of the cursor.
* `Cursor.Ready`: a cursor that cannot run out of tokens.
* `Cursor.Obeys`: what such a reading does to a stream, however it ends.

## Main statements

* `Cursor.Steps.obeys`: readings obey.
* `Cursor.Steps.local`: tokens that are not reached may be replaced.
* `TextUnit.read_steps`: the readings of whole texts are such readings.
-/

namespace Curly

/-- The fault is met where the next token would be drawn from the text. -/
def ReadFault.Drawn : ReadFault → Prop
  | lexical _ => True
  | unmatched => True
  | exhausted => True
  | _ => False

/-- The fault that is met at the ending of a stream. -/
inductive Ending.Meets : Ending → ReadFault → Prop where
  | failed {offset e} : Meets (.failed offset e) (.lexical e)
  | unmatched {offset} : Meets (.unmatched offset) .unmatched
  | exhausted : Meets .exhausted .exhausted

namespace Cursor

/-- A reading that is put together from the primitives of the cursor. Only they meet the faults of the
text and write down the tokens that are drawn. -/
inductive Steps : {α : Type} → ReadM α → Prop where
  | pure {α : Type} (a : α) : Steps (Pure.pure a : ReadM α)
  | throw {α : Type} {e : ReadFault} (he : ¬e.Drawn) : Steps (MonadExcept.throw e : ReadM α)
  | note (name : String) (span : Span) : Steps (Cursor.note (.declaration name span))
  | peek : Steps Cursor.peek
  | advance : Steps Cursor.advance
  | bind {α β : Type} {m : ReadM α} {f : α → ReadM β} (hm : Steps m) (hf : ∀ a, Steps (f a)) :
      Steps (m >>= f)

/-- If nothing comes after the tokens, the last of them is the end of input. -/
def Ready (c : Cursor) : Prop :=
  c.ending = .exhausted → ∃ us eof, c.rest = us ++ [eof] ∧ eof.kind = .endOfInput

/-- What a reading from the cursor `c` does to the stream. Only a fault of the text is met behind all
tokens, and not if the last one is the end of input. -/
def Obeys {α : Type} (c : Cursor) : EStateM.Result ReadFault Cursor α → Prop
  | .ok _ c' => c'.ending = c.ending ∧ c'.rest <:+ c.rest ∧ (Ready c → Ready c')
  | .error e c' => c'.rest <:+ c.rest ∧
      (e.Drawn → c'.rest = [] ∧ c.ending.Meets e ∧ (Ready c → e ≠ .exhausted))

variable {α β : Type}

theorem Obeys.refl {c c' : Cursor} {a : α} (he : c'.ending = c.ending) (hr : c'.rest = c.rest) :
    Obeys c (.ok a c' : EStateM.Result ReadFault Cursor α) := by
  refine ⟨he, hr ▸ List.suffix_refl _, fun h => ?_⟩
  unfold Ready
  rw [he, hr]
  exact h

theorem peek_obeys {c : Cursor} (hr : Regular c) : Obeys c (Cursor.peek c) := by
  unfold Cursor.peek
  split
  · split
    · exact .refl rfl rfl
    · exact .refl rfl rfl
  · next hnil =>
    split
    · next he =>
      refine ⟨List.suffix_refl _, fun _ => ⟨hnil, he ▸ .exhausted, fun hready => ?_⟩⟩
      obtain ⟨us, eof, h, -⟩ := hready he
      rw [hnil] at h
      exact absurd h (by simp)
    · next he => exact ⟨List.suffix_refl _, fun _ => ⟨hnil, he ▸ .failed, fun _ => nofun⟩⟩
    · next he => exact ⟨List.suffix_refl _, fun _ => ⟨hnil, he ▸ .unmatched, fun _ => nofun⟩⟩
    · next t he => exact absurd he (hr t)

theorem Obeys.trans {c c' : Cursor} {a : α} {r : EStateM.Result ReadFault Cursor β}
    (h : Obeys c (.ok a c' : EStateM.Result ReadFault Cursor α)) (h' : Obeys c' r) : Obeys c r := by
  obtain ⟨hending, hsuffix, hready⟩ := h
  cases r with
  | ok b c'' =>
    obtain ⟨hending', hsuffix', hready'⟩ := h'
    exact ⟨hending'.trans hending, hsuffix'.trans hsuffix, fun h => hready' (hready h)⟩
  | error e c'' =>
    obtain ⟨hsuffix', hdrawn⟩ := h'
    refine ⟨hsuffix'.trans hsuffix, fun he => ?_⟩
    obtain ⟨hnil, hmeets, hexhausted⟩ := hdrawn he
    exact ⟨hnil, hending ▸ hmeets, fun h => hexhausted (hready h)⟩

/-- A token is looked at where it is the first one left. -/
theorem rest_of_peek {c c' : Cursor} {t : Token} (hr : Regular c) (h : Cursor.peek c = .ok t c') :
    c'.rest = c.rest ∧ ∃ rest, c.rest = t :: rest :=
  (Ensures.peek c t c' hr rfl h).2

/-- What is taken is no end of input, so that this is still to come. -/
theorem taken_obeys {c : Cursor} {t : Token} {rest : List Token} (hc : c.rest = t :: rest)
    (ht : t.kind ≠ .endOfInput) :
    Obeys c (.ok t (taken c) : EStateM.Result ReadFault Cursor Token) := by
  refine ⟨by simp only [taken, hc], ?_, fun hready he => ?_⟩
  · rw [rest_taken hc, hc]
    exact List.suffix_cons t rest
  · obtain ⟨us, eof, h, heof⟩ := hready (by simpa only [taken, hc] using he)
    rw [hc] at h
    rw [rest_taken hc]
    cases us with
    | nil =>
      cases h
      exact absurd heof ht
    | cons u us => exact ⟨us, eof, (List.cons.inj h).2, heof⟩

theorem advance_obeys {c : Cursor} (hr : Regular c) : Obeys c (Cursor.advance c) := by
  have hpeek := peek_obeys hr
  unfold Cursor.advance
  rw [bind_run]
  split
  · next t c' heq =>
    rw [heq] at hpeek
    obtain ⟨hsame, rest, hrest⟩ := rest_of_peek hr heq
    split
    · exact .refl hpeek.1 hsame
    · next ht => exact hpeek.trans (taken_obeys (hsame.trans hrest) ht)
  · next heq =>
    rw [heq] at hpeek
    exact hpeek

/-- **Readings obey**: they drop tokens from the left, keep the ending, and meet only its faults. -/
theorem Steps.obeys {m : ReadM α} (h : Steps m) {c : Cursor} (hr : Regular c) : Obeys c (m c) := by
  induction h generalizing c with
  | pure => exact .refl rfl rfl
  | throw he => exact ⟨List.suffix_refl _, fun h => absurd h he⟩
  | note => exact .refl rfl rfl
  | peek => exact peek_obeys hr
  | advance => exact advance_obeys hr
  | bind _ _ ihm ihf =>
    have hm := ihm hr
    rw [bind_run]
    split
    · next a c' heq =>
      rw [heq] at hm
      have hr' : Regular c' := fun t => by
        rw [hm.1]
        exact hr t
      exact hm.trans (ihf a hr')
    · next heq =>
      rw [heq] at hm
      exact hm

/-! ### Tokens that are not reached -/

/-- The tokens that are left when a reading ends. -/
def left : EStateM.Result ReadFault Cursor α → List Token
  | .ok _ c => c.rest
  | .error _ c => c.rest

/-- The cursor with other tokens left, and another ending. -/
def leave (ts : List Token) (ending : Ending) (c : Cursor) : Cursor :=
  { c with rest := ts, ending := ending }

/-- The end of a reading with other tokens left, and another ending. -/
def endWith (ts : List Token) (ending : Ending) :
    EStateM.Result ReadFault Cursor α → EStateM.Result ReadFault Cursor α
  | .ok a c => .ok a (c.leave ts ending)
  | .error e c => .error e (c.leave ts ending)

theorem Obeys.suffix {c : Cursor} {r : EStateM.Result ReadFault Cursor α} (h : Obeys c r) :
    left r <:+ c.rest := by
  cases r with
  | ok => exact h.2.1
  | error => exact h.1

/-- What is seen of a cursor is its first token. -/
theorem peek_leave {c : Cursor} {t : Token} {rest : List Token} (hc : c.rest = t :: rest) :
    ∃ c', Cursor.peek c = .ok t c' ∧ c'.rest = t :: rest ∧ ∀ rest' ending',
      Cursor.peek (c.leave (t :: rest') ending') = .ok t (c'.leave (t :: rest') ending') := by
  refine ⟨_, peek_cons hc, ?_, fun rest' ending' => ?_⟩
  · split
    · exact hc
    · exact hc
  · refine (peek_cons (c := c.leave (t :: rest') ending') rfl).trans (congrArg _ ?_)
    by_cases hp : c.peeked = true
    · rw [if_pos hp]
      exact if_pos hp
    · rw [if_neg hp]
      exact if_neg hp

/-- A token is reached before those that are left. -/
theorem reached {us vs tail rest : List Token} (h : rest <:+ us ++ tail) (hvs : vs ≠ [])
    (hrest : rest = vs ++ tail) : ∃ t us', us = t :: us' := by
  cases us with
  | cons t us => exact ⟨t, us, rfl⟩
  | nil =>
    have := h.length_le
    rw [hrest, List.length_append, List.nil_append] at this
    exact absurd (List.eq_nil_of_length_eq_zero (by omega)) hvs

/-- **Readings are local**: if some of the tokens `us` are left, what comes behind them does not
matter. -/
theorem Steps.local {m : ReadM α} (h : Steps m) {c : Cursor} {us vs tail : List Token}
    (hr : Regular c) (hc : c.rest = us ++ tail) (hvs : vs ≠ []) (hleft : left (m c) = vs ++ tail)
    (tail' : List Token) (ending' : Ending) :
    m (c.leave (us ++ tail') ending') = endWith (vs ++ tail') ending' (m c) := by
  induction h generalizing c us vs with
  | pure a =>
    obtain rfl : us = vs := List.append_cancel_right (hc.symm.trans hleft)
    rfl
  | throw =>
    obtain rfl : us = vs := List.append_cancel_right (hc.symm.trans hleft)
    rfl
  | note =>
    obtain rfl : us = vs := List.append_cancel_right (hc.symm.trans hleft)
    rfl
  | peek =>
    obtain ⟨t, us, rfl⟩ := reached (hc ▸ (peek_obeys hr).suffix) hvs hleft
    obtain ⟨c', hpeek, hrest, hother⟩ := peek_leave hc
    rw [hpeek] at hleft ⊢
    obtain rfl : t :: us = vs := List.append_cancel_right (hrest.symm.trans hleft)
    exact hother (us ++ tail') ending'
  | advance =>
    obtain ⟨t, us, rfl⟩ := reached (hc ▸ (advance_obeys hr).suffix) hvs hleft
    obtain ⟨c', hpeek, hrest, hother⟩ := peek_leave hc
    have hother := hother (us ++ tail') ending'
    unfold Cursor.advance at hleft ⊢
    rw [bind_run, hpeek] at hleft
    rw [bind_run, bind_run, List.cons_append, hother, hpeek]
    dsimp only [endWith] at hleft ⊢
    split at hleft
    · next ht =>
      obtain rfl : t :: us = vs := List.append_cancel_right (hrest.symm.trans hleft)
      rw [if_pos ht]
      rfl
    · next ht =>
      have htaken : (taken c').rest = us ++ tail := rest_taken hrest
      obtain rfl : us = vs := List.append_cancel_right (htaken.symm.trans hleft)
      rw [if_neg ht]
      show EStateM.Result.ok t (taken (c'.leave (t :: (us ++ tail')) ending')) =
        .ok t ((taken c').leave (us ++ tail') ending')
      simp only [taken, leave, hrest]
  | @bind _ _ m f _ hf ihm ihf =>
    have hm := (Steps.obeys ‹Steps m› hr)
    rw [bind_run] at hleft ⊢
    rw [bind_run]
    cases heq : m c with
    | error e c' =>
      rw [heq] at hleft
      rw [ihm hr hc hvs (by rw [heq]; exact hleft), heq]
      rfl
    | ok a c' =>
      rw [heq] at hm hleft
      have hr' : Regular c' := fun t => by
        rw [hm.1]
        exact hr t
      -- The tokens that are left in the end were left in between as well.
      have hsuffix := ((hf a).obeys hr').suffix
      obtain ⟨ws, hws⟩ := hsuffix
      rw [hleft, ← List.append_assoc] at hws
      have hne : ws ++ vs ≠ [] := List.append_ne_nil_of_right_ne_nil ws hvs
      rw [ihm hr hc hne (by rw [heq]; exact hws.symm), heq]
      exact ihf a hr' hws.symm hvs hleft

/-! ### The rules -/

namespace Steps

theorem nextIs (kind : TokenKind) : Steps (Cursor.nextIs kind) := peek.bind fun _ => pure _

theorem failAt (t : Token) (cause : SyntaxCause) : Steps (Cursor.failAt t cause : ReadM α) :=
  throw id

theorem expect (kind : TokenKind) : Steps (Cursor.expect kind) := by
  refine peek.bind fun t => ?_
  split
  · exact advance
  · exact failAt _ _

theorem repeatUpTo {step : α → ReadM (α ⊕ β)} (h : ∀ a, Steps (step a)) (rounds : Nat) (a : α) :
    Steps (Cursor.repeatUpTo step rounds a) := by
  induction rounds generalizing a with
  | zero => exact throw id
  | succ rounds ih =>
    refine (h a).bind fun r => ?_
    cases r with
    | inl a' => exact ih a'
    | inr b => exact pure b

end Steps

end Cursor

open Cursor

/-- The rules are put together from the primitives of the cursor. -/
structure Rules.Steps (r : Rules) : Prop where
  statement : Cursor.Steps r.statement
  declaration : Cursor.Steps r.declaration
  block : Cursor.Steps r.block
  expression : ∀ p, Cursor.Steps (r.expression p)
  operand : Cursor.Steps r.operand
  primary : Cursor.Steps r.primary
  parenthesized : Cursor.Steps r.parenthesized
  call : ∀ callee, Cursor.Steps (r.call callee)

theorem Rules.Steps.bottom : Rules.bottom.Steps where
  statement := .throw id
  declaration := .throw id
  block := .throw id
  expression := fun _ => .throw id
  operand := .throw id
  primary := .throw id
  parenthesized := .throw id
  call := fun _ => .throw id

namespace Rule

variable {S : Setting} {r : Rules}

theorem skipEndsOfLine_steps (S : Setting) : Steps (skipEndsOfLine S) := by
  refine .repeatUpTo (fun _ => (Steps.nextIs _).bind fun b => ?_) _ _
  split
  · exact Steps.advance.bind fun _ => .pure _
  · exact .pure _

theorem endOfStatement_steps : Steps endOfStatement := by
  refine Steps.peek.bind fun t => ?_
  split
  · exact Steps.advance.bind fun _ => .pure _
  · exact .pure _
  · exact .failAt _ _

theorem declaration_steps (h : r.Steps) : Steps (declaration r) := by
  refine (Steps.expect _).bind fun opener => (Steps.expect _).bind fun name =>
    Steps.bind (Steps.peek.bind fun t => ?_) fun _ => (Steps.note _ _).bind fun _ => .pure _
  split
  · exact Steps.advance.bind fun _ => (h.expression 0).bind fun _ => .pure _
  · exact .pure _
  · exact .pure _
  · exact .pure _
  · exact .failAt _ _

theorem statement_steps (h : r.Steps) : Steps (statement r) := by
  refine Steps.peek.bind fun t => ?_
  split
  · exact h.declaration
  · exact .failAt _ _
  · exact h.expression 0

theorem blockStep_steps (h : r.Steps) (opener : Token) (done : List Tree) :
    Steps (blockStep S r opener done) := by
  refine Steps.peek.bind fun t => ?_
  split
  · exact .pure _
  · exact .failAt _ _
  · refine h.statement.bind fun s => Steps.peek.bind fun t => ?_
    split
    · exact (skipEndsOfLine_steps S).bind fun _ => .pure _
    · exact .pure _
    · exact .failAt _ _
    · exact .failAt _ _

theorem block_steps (h : r.Steps) : Steps (block S r) :=
  (Steps.expect _).bind fun opener => (skipEndsOfLine_steps S).bind fun _ =>
    (Steps.repeatUpTo (blockStep_steps h opener) _ _).bind fun _ =>
      Steps.advance.bind fun _ => .pure _

theorem parenthesized_steps (h : r.Steps) : Steps (parenthesized r) := by
  refine (Steps.expect _).bind fun opener => (h.expression 0).bind fun inner =>
    Steps.peek.bind fun t => ?_
  split
  · exact .failAt _ _
  · exact Steps.advance.bind fun _ => .pure _
  · exact .failAt _ _

theorem argumentStep_steps (h : r.Steps) (opener : Token) (done : List Tree) :
    Steps (argumentStep r opener done) := by
  refine (h.expression 0).bind fun arg => Steps.peek.bind fun t => ?_
  split
  · exact Steps.advance.bind fun _ => .pure _
  · exact .pure _
  · exact .failAt _ _
  · exact .failAt _ _

theorem argumentList_steps (h : r.Steps) : Steps (argumentList S r) := by
  refine (Steps.expect _).bind fun opener => Steps.bind ?_ fun _ =>
    Steps.advance.bind fun _ => .pure _
  refine (Steps.nextIs _).bind fun b => ?_
  split
  · exact .pure _
  · exact .repeatUpTo (argumentStep_steps h opener) _ _

theorem call_steps (h : r.Steps) (callee : Option Tree) : Steps (call S r callee) := by
  refine (argumentList_steps h).bind fun _ => ?_
  cases callee with
  | some callee => exact .pure _
  | none => exact .throw id

theorem primary_steps (h : r.Steps) : Steps (primary r) := by
  refine Steps.peek.bind fun t => ?_
  split
  case h_6 | h_7 => exact Steps.advance.bind fun _ => h.block.bind fun _ => .pure _
  case h_8 => exact h.parenthesized
  case h_9 | h_10 | h_11 | h_12 => exact .failAt _ _
  all_goals exact Steps.advance.bind fun _ => .pure _

theorem signed_steps (h : r.Steps) (t : Token) (name : String) : Steps (signed r t name) := by
  refine Steps.advance.bind fun _ => h.operand.bind fun _ => ?_
  split
  · exact .pure _
  · exact .throw id

theorem operand_steps (h : r.Steps) : Steps (operand S r) := by
  refine Steps.peek.bind fun t => ?_
  split
  · exact signed_steps h t _
  · refine h.primary.bind fun first => .repeatUpTo (fun callee => ?_) _ _
    refine (Steps.nextIs _).bind fun b => ?_
    split
    · exact (h.call _).bind fun _ => .pure _
    · exact .pure _

theorem assignment_steps (h : r.Steps) (t : Token) (left : Tree) :
    Steps (assignment r t left) := by
  refine Steps.bind ?_ fun name => Steps.advance.bind fun _ =>
    (h.expression 0).bind fun _ => .pure _
  unfold target
  split
  · exact .throw id
  · split
    · exact .failAt _ _
    · exact .pure _

theorem infixed_steps (h : r.Steps) (t : Token) (p : Nat) (left : Tree) :
    Steps (infixed r t p left) := by
  refine Steps.advance.bind fun _ => (h.expression p).bind fun _ => ?_
  split
  · exact .throw id
  · exact .pure _

theorem climbStep_steps (h : r.Steps) (p : Int) (left : Tree) : Steps (climbStep S r p left) := by
  refine Steps.peek.bind fun t => ?_
  split
  · split
    · exact .pure _
    · exact (assignment_steps h t left).bind fun _ => .pure _
  · split
    · exact .pure _
    · split
      · exact .pure _
      · exact (infixed_steps h t _ left).bind fun _ => .pure _

theorem expression_steps (h : r.Steps) (p : Int) : Steps (expression S r p) :=
  h.operand.bind fun _ => .repeatUpTo (climbStep_steps h p) _ _

end Rule

theorem rulesAt_steps (S : Setting) (d : Nat) : (rulesAt S d).Steps := by
  induction d with
  | zero => exact .bottom
  | succ d ih =>
    exact {
      statement := Rule.statement_steps ih
      declaration := Rule.declaration_steps ih
      block := Rule.block_steps ih
      expression := Rule.expression_steps ih
      operand := Rule.operand_steps ih
      primary := Rule.primary_steps ih
      parenthesized := Rule.parenthesized_steps ih
      call := Rule.call_steps ih }

namespace TextUnit

open Rule

/-- The readings of whole texts are put together from the primitives of the cursor. -/
theorem read_steps (S : Setting) {r : Rules} (h : r.Steps) (u : TextUnit) : Steps (u.read S r) := by
  cases u with
  | program =>
    refine (skipEndsOfLine_steps S).bind fun _ => Steps.bind (.repeatUpTo (fun done => ?_) _ _)
      fun _ => .pure _
    refine Steps.peek.bind fun t => ?_
    split
    · exact .pure _
    · exact .failAt _ _
    · exact h.declaration.bind fun _ => endOfStatement_steps.bind fun _ =>
        (skipEndsOfLine_steps S).bind fun _ => .pure _
    · exact .failAt _ _
  | single =>
    refine (skipEndsOfLine_steps S).bind fun _ => h.statement.bind fun _ =>
      (skipEndsOfLine_steps S).bind fun _ => Steps.peek.bind fun t => ?_
    split
    · exact .pure _
    · exact .failAt _ _
  | statements =>
    refine (skipEndsOfLine_steps S).bind fun _ => Steps.bind (.repeatUpTo (fun done => ?_) _ _)
      fun _ => .pure _
    refine (Steps.nextIs _).bind fun b => ?_
    split
    · exact .pure _
    · refine h.statement.bind fun _ => (Steps.nextIs _).bind fun b => ?_
      split
      · exact .pure _
      · exact endOfStatement_steps.bind fun _ => (skipEndsOfLine_steps S).bind fun _ => .pure _

end TextUnit

end Curly
