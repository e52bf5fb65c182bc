import Curly.Proofs.Reading.Steps
import Curly.Proofs.Token.Streams

/-!
# The tokens of a reader

A reader may be asked for one thing after the other, and goes on where it stopped, also after it failed.
It keeps account of the tokens that it drew: each was taken, but for one that it looks at.

## Main definitions

* `Cursor.Request`: what a reader may be asked for.
* `Cursor.answers`: a reader that is asked for one thing after the other.
* `Cursor.Buffered`: the tokens that were drawn are those that were taken and the one looked at.

## Main statements

* `Cursor.Steps.keeps`: every reading keeps its tokens in order, however it ends.
* `Cursor.answers_keep`: so does a reader that is asked for one thing after the other.
* `Cursor.answersIn_lose_nothing`: no token of a text is lost, taken twice or taken out of order.
-/

namespace Curly

namespace Cursor

/-- What a reader may be asked for. -/
inductive Request where
  /-- The next token, which is not taken. -/
  | peek
  /-- The next token. -/
  | advance
  /-- Whether the next token is of one of the given kinds. -/
  | nextIn (kinds : List TokenKind)
  /-- The next token, which has to be of the given kind. -/
  | expect (kind : TokenKind)
  /-- To go behind ends of line. -/
  | skipEndsOfLine
  /-- To go behind the end of a statement. -/
  | endOfStatement
  /-- A declaration. -/
  | declaration
  /-- A statement. -/
  | statement
  /-- A block. -/
  | block
  /-- An expression whose operators bind stronger than the given power. -/
  | expression (power : Int)
  /-- An operand with the operators in front of it. -/
  | operand
  /-- An operand without calls or operators. -/
  | primary
  /-- An expression in parentheses. -/
  | parenthesized
  /-- The call of a tree, if there is one. -/
  | call (callee : Option Tree)
  /-- A whole text. -/
  | unit (u : TextUnit)

namespace Request

/-- What a request is answered with. -/
def Answer : Request → Type
  | peek | advance | expect _ => Token
  | nextIn _ => Bool
  | skipEndsOfLine | endOfStatement => PUnit
  | _ => Tree

/-- Reads what is asked for. -/
def read (S : Setting) (r : Rules) : (q : Request) → ReadM q.Answer
  | peek => Cursor.peek
  | advance => Cursor.advance
  | nextIn kinds => do
    let t ← Cursor.peek
    return kinds.contains t.kind
  | expect kind => Cursor.expect kind
  | skipEndsOfLine => Rule.skipEndsOfLine S
  | endOfStatement => Rule.endOfStatement
  | declaration => r.declaration
  | statement => r.statement
  | block => r.block
  | expression power => r.expression power
  | operand => r.operand
  | primary => r.primary
  | parenthesized => r.parenthesized
  | call callee => r.call callee
  | unit u => u.read S r

end Request

/-- The cursor that a reading leaves. -/
def afterwards {α : Type} : EStateM.Result ReadFault Cursor α → Cursor
  | .ok _ c => c
  | .error _ c => c

/-- A reader that is asked for one thing after the other: how it failed each time, if it did, and the
cursor that it leaves. -/
def answers (S : Setting) (r : Rules) : List Request → Cursor → List (Option ReadFault) × Cursor
  | [], c => ([], c)
  | q :: requests, c =>
    let result := q.read S r c
    let later := answers S r requests (afterwards result)
    (fault? result :: later.1, later.2)

/-- The token that was drawn, if this is what was written down. -/
def Note.token? : Note → Option Token
  | token t => some t
  | declaration .. => none

/-- The tokens that were drawn from the text, from left to right. -/
def pulled (c : Cursor) : List Token := (c.notes.filterMap Note.token?).reverse

/-- The cursor stands in the stream: what was taken and what is left are its tokens, and what was drawn
was taken, but for a token that is looked at. What comes after the tokens is still to come, or was
met. -/
structure Buffered (s : Stream) (c : Cursor) : Prop where
  tokens : s.tokens = c.before.reverse ++ c.rest
  pulled : c.pulled = c.before.reverse ++ c.lookahead?.toList
  taken : ∀ t ∈ c.before, t.kind ≠ .endOfInput
  ending : c.ending = s.ending ∨ c.rest = [] ∧ c.ending = .exhausted ∧ s.ending ≠ .exhausted

/-- What a reading from the cursor `c` keeps, however it ends: the tokens stay in order, and what comes
after them is met only by the fault there. -/
def Keeps {α : Type} (s : Stream) (c : Cursor) : EStateM.Result ReadFault Cursor α → Prop
  | .ok _ c' => Buffered s c' ∧ c'.ending = c.ending
  | .error e c' => Buffered s c' ∧
      (e.Drawn ∧ c'.ending = .exhausted ∨ ¬e.Drawn ∧ c'.ending = c.ending)

variable {α β : Type} {s : Stream} {c : Cursor} {t : Token}

theorem ofStream_buffered (s : Stream) : Buffered s (ofStream s) :=
  ⟨rfl, rfl, nofun, .inl rfl⟩

namespace Buffered

/-- The tokens that were drawn are the first ones of the stream. -/
theorem pulled_prefix (h : Buffered s c) : c.pulled <+: s.tokens := by
  have hlookahead : c.lookahead?.toList <+: c.rest := by
    unfold lookahead?
    split
    · cases c.rest with
      | nil => exact List.prefix_refl _
      | cons t rest => exact ⟨rest, rfl⟩
    · exact List.nil_prefix
  rw [h.pulled, h.tokens]
  exact (List.prefix_append_right_inj _).2 hlookahead

theorem regular (hs : ∀ t, s.ending ≠ .stalled t) (h : Buffered s c) : Regular c := by
  intro t ht
  rcases h.ending with he | ⟨-, he, -⟩
  · exact hs t (he.symm.trans ht)
  · cases he.symm.trans ht

/-- Where the stream goes on, its end is still to come. -/
theorem ready (hs : s.Proper) (h : Buffered s c) (he : c.ending = s.ending) : Ready c := by
  intro hexhausted
  obtain ⟨ts, eof, htokens, heof⟩ := hs.ends (he.symm.trans hexhausted)
  have hbefore := h.tokens
  rw [htokens] at hbefore
  rcases List.eq_nil_or_concat c.rest with hnil | ⟨us, last, hrest⟩
  · -- The end of input would have been taken.
    rw [hnil, List.append_nil] at hbefore
    refine absurd heof (h.taken eof (List.mem_reverse.1 ?_))
    rw [← hbefore]
    exact List.mem_append_right ts (List.mem_singleton_self eof)
  · rw [List.concat_eq_append] at hrest
    rw [hrest, ← List.append_assoc] at hbefore
    have hlast := congrArg List.getLast? hbefore
    rw [List.getLast?_concat, List.getLast?_concat] at hlast
    cases hlast
    exact ⟨us, eof, hrest, heof⟩

/-- A token is drawn when it is first looked at. -/
theorem drawn {rest : List Token} (h : Buffered s c) (hc : c.rest = t :: rest)
    (hp : c.peeked = false) : Buffered s (c.drawn t) := by
  have hpulled : (c.drawn t).pulled = c.pulled ++ [t] := List.reverse_cons
  have hlookahead : (c.drawn t).lookahead? = some t := by
    rw [lookahead?, peeked_drawn, if_pos rfl, rest_drawn, hc]
    rfl
  refine ⟨h.tokens, ?_, h.taken, h.ending⟩
  rw [hpulled, hlookahead, h.pulled, lookahead?_eq_none hp, Option.toList_none, List.append_nil]
  rfl

/-- The token that is looked at may be taken. -/
theorem taken_cons {rest : List Token} (h : Buffered s c) (hc : c.rest = t :: rest)
    (hp : c.peeked = true) (ht : t.kind ≠ .endOfInput) : Buffered s c.taken := by
  have hpulled : c.taken.pulled = c.pulled := by
    simp only [Cursor.taken, hc]
    rfl
  have hlookahead : c.lookahead? = some t := by
    rw [lookahead?, if_pos hp, hc]
    rfl
  have hlookahead' : c.taken.lookahead? = none := by
    simp only [Cursor.taken, hc]
    rfl
  refine ⟨?_, ?_, ?_, ?_⟩
  · rw [before_taken hc, rest_taken hc, List.reverse_cons, List.append_assoc, h.tokens, hc]
    rfl
  · rw [hpulled, h.pulled, hlookahead, hlookahead', before_taken hc, List.reverse_cons]
    exact (List.append_nil _).symm
  · rw [before_taken hc]
    exact List.forall_mem_cons.2 ⟨ht, h.taken⟩
  · rcases h.ending with he | ⟨hnil, -⟩
    · refine .inl ?_
      simp only [Cursor.taken, hc]
      exact he
    · rw [hc] at hnil
      cases hnil

/-- What comes after the tokens is met once. -/
theorem failedAt (h : Buffered s c) (hc : c.rest = []) (he : c.ending ≠ .exhausted) (offset : Nat) :
    Buffered s (c.failedAt offset) := by
  refine ⟨h.tokens, h.pulled, h.taken, .inr ⟨hc, rfl, fun hs => ?_⟩⟩
  rcases h.ending with he' | ⟨-, he', -⟩
  · exact he (he'.trans hs)
  · exact he he'

end Buffered

theorem Keeps.of_ending {c' : Cursor} {r : EStateM.Result ReadFault Cursor α} (h : Keeps s c' r)
    (he : c'.ending = c.ending) : Keeps s c r := by
  cases r with
  | ok => exact ⟨h.1, h.2.trans he⟩
  | error => exact ⟨h.1, h.2.imp_right (And.imp_right fun he' => he'.trans he)⟩

theorem peek_keeps (hs : ∀ t, s.ending ≠ .stalled t) (h : Buffered s c) : Keeps s c (peek c) := by
  unfold peek
  split
  · next t rest hc =>
    by_cases hp : c.peeked = true
    · rw [if_pos hp]
      exact ⟨h, rfl⟩
    · rw [if_neg hp]
      exact ⟨h.drawn hc (Bool.eq_false_iff.2 hp), rfl⟩
  · next hc =>
    split
    · next he => exact ⟨h, .inl ⟨trivial, he⟩⟩
    · next he => exact ⟨h.failedAt hc (by rw [he]; exact nofun) _, .inl ⟨trivial, rfl⟩⟩
    · next he => exact ⟨h.failedAt hc (by rw [he]; exact nofun) _, .inl ⟨trivial, rfl⟩⟩
    · next t he => exact absurd he (h.regular hs t)

/-- A token that was looked at is the next one, and was drawn. -/
theorem peeked_of_peek {c' : Cursor} (hr : Regular c) (h : peek c = .ok t c') :
    c'.peeked = true ∧ ∃ rest, c'.rest = t :: rest := by
  obtain ⟨hsame, rest, hrest⟩ := rest_of_peek hr h
  refine ⟨?_, rest, hsame.trans hrest⟩
  rw [peek_cons hrest] at h
  by_cases hp : c.peeked = true
  · rw [if_pos hp] at h
    cases h
    exact hp
  · rw [if_neg hp] at h
    cases h
    rfl

theorem advance_keeps (hs : ∀ t, s.ending ≠ .stalled t) (h : Buffered s c) :
    Keeps s c (advance c) := by
  have hpeek := peek_keeps hs h
  unfold advance
  rw [bind_run]
  split
  · next t c' heq =>
    rw [heq] at hpeek
    obtain ⟨hpeeked, rest, hrest⟩ := peeked_of_peek (h.regular hs) heq
    split
    · exact hpeek
    · next ht =>
      refine ⟨hpeek.1.taken_cons hrest hpeeked ht, ?_⟩
      rw [← hpeek.2]
      simp only [Cursor.taken, hrest]
  · next heq =>
    rw [heq] at hpeek
    exact hpeek

/-- **Readings keep their tokens**: whatever a reading does and however it ends, each token that was drawn
was taken, but for one that is looked at. -/
theorem Steps.keeps {m : ReadM α} (hm : Steps m) (hs : ∀ t, s.ending ≠ .stalled t)
    (h : Buffered s c) : Keeps s c (m c) := by
  induction hm generalizing c with
  | pure => exact ⟨h, rfl⟩
  | throw he => exact ⟨h, .inr ⟨he, rfl⟩⟩
  | note => exact ⟨⟨h.tokens, h.pulled, h.taken, h.ending⟩, rfl⟩
  | peek => exact peek_keeps hs h
  | advance => exact advance_keeps hs h
  | bind _ _ ihm ihf =>
    have hm := ihm h
    rw [bind_run]
    split
    · next a c' heq =>
      rw [heq] at hm
      exact (ihf a hm.1).of_ending hm.2
    · next heq =>
      rw [heq] at hm
      exact hm

/-! ### Behind all tokens -/

/-- The reading needs a token first, so that it fails where there is none. -/
def Asks (m : ReadM α) : Prop :=
  ∀ c : Cursor, c.rest = [] → c.ending = .exhausted → m c = .error .exhausted c

namespace Asks

theorem peek : Asks Cursor.peek := fun _ => peek_of_exhausted

theorem bind {m : ReadM α} (h : Asks m) (f : α → ReadM β) : Asks (m >>= f) := by
  intro c hc he
  rw [bind_run, h c hc he]

theorem advance : Asks Cursor.advance := peek.bind _

theorem expect (kind : TokenKind) : Asks (Cursor.expect kind) := peek.bind _

theorem repeatUpTo {step : α → ReadM (α ⊕ β)} {a : α} (h : Asks (step a)) {rounds : Nat}
    (hrounds : 0 < rounds) : Asks (Cursor.repeatUpTo step rounds a) := by
  obtain ⟨n, rfl⟩ := Nat.exists_eq_succ_of_ne_zero (Nat.ne_of_gt hrounds)
  exact h.bind _

variable {S : Setting} {r : Rules}

theorem skipEndsOfLine (hS : 0 < S.rounds) : Asks (Rule.skipEndsOfLine S) :=
  repeatUpTo ((peek.bind _).bind _) hS

theorem argumentList : Asks (Rule.argumentList S r) := (expect _).bind _

theorem operand : Asks (Rule.operand S r) := peek.bind _

theorem unit (hS : 0 < S.rounds) (u : TextUnit) : Asks (u.read S r) := by
  cases u with
  | program => exact (skipEndsOfLine hS).bind _
  | single => exact (skipEndsOfLine hS).bind _
  | statements => exact (skipEndsOfLine hS).bind _

end Asks

/-- Every request needs a token first. -/
theorem Request.asks {S : Setting} {calls : Nat} (hS : 0 < S.rounds) (hcalls : 1 < calls)
    (q : Request) : Asks (q.read S (rulesAt S calls)) := by
  -- An expression calls for its first operand before it looks at a token.
  obtain ⟨n, rfl⟩ : ∃ n, calls = n + 2 := ⟨calls - 2, by omega⟩
  cases q with
  | peek => exact .peek
  | advance => exact .advance
  | nextIn => exact Asks.peek.bind _
  | expect kind => exact .expect kind
  | skipEndsOfLine => exact .skipEndsOfLine hS
  | endOfStatement => exact Asks.peek.bind _
  | declaration => exact (Asks.expect _).bind _
  | statement => exact Asks.peek.bind _
  | block => exact (Asks.expect _).bind _
  | expression => exact Asks.operand.bind _
  | operand => exact .operand
  | primary => exact Asks.peek.bind _
  | parenthesized => exact (Asks.expect _).bind _
  | call => exact Asks.argumentList.bind _
  | unit u => exact .unit hS u

theorem Request.steps {S : Setting} {r : Rules} (h : r.Steps) (q : Request) :
    Steps (q.read S r) := by
  cases q with
  | peek => exact .peek
  | advance => exact .advance
  | nextIn => exact Steps.peek.bind fun _ => .pure _
  | expect kind => exact .expect kind
  | skipEndsOfLine => exact Rule.skipEndsOfLine_steps S
  | endOfStatement => exact Rule.endOfStatement_steps
  | declaration => exact h.declaration
  | statement => exact h.statement
  | block => exact h.block
  | expression power => exact h.expression power
  | operand => exact h.operand
  | primary => exact h.primary
  | parenthesized => exact h.parenthesized
  | call callee => exact h.call callee
  | unit u => exact u.read_steps S h

/-! ### One request after the other -/

section

variable {S : Setting} {calls : Nat} (hS : 0 < S.rounds) (hcalls : 1 < calls) (hs : s.Proper)
  (hends : s.ending = .exhausted ∨ ∃ begins e, s.ending = .failed begins e)

include hs hends

/-- As long as nothing was met behind the tokens, only the fault of the text can be met there. -/
theorem Steps.exists_failed {m : ReadM α} (hm : Steps m) (h : Buffered s c)
    (hlive : c.ending = s.ending) {e : ReadFault} {c' : Cursor} (hresult : m c = .error e c')
    (he : e.Drawn) : ∃ begins e', s.ending = .failed begins e' ∧ e = .lexical e' := by
  have hobeys := hm.obeys (h.regular hs.regular)
  rw [hresult] at hobeys
  obtain ⟨-, hmeets, hready⟩ := hobeys.2 he
  rw [hlive] at hmeets
  rcases hends with hends | ⟨begins, e', hends⟩
  · rw [hends] at hmeets
    cases hmeets
    exact absurd rfl (hready (h.ready hs hlive))
  · refine ⟨begins, e', hends, ?_⟩
    rw [hends] at hmeets
    cases hmeets
    rfl

include hS hcalls

/-- A request meets the fault of the text, or it leaves the end of the stream to come or behind, where it
found it. It runs out of tokens only behind this end. -/
theorem Request.met_iff (h : Buffered s c) (q : Request) {r : EStateM.Result ReadFault Cursor q.Answer}
    (hr : q.read S (rulesAt S calls) c = r) : Buffered s (afterwards r) ∧
      ((afterwards r).ending ≠ s.ending ↔
        c.ending ≠ s.ending ∨ ∃ e, fault? r = some (.lexical e)) ∧
      (∀ e, fault? r = some (.lexical e) → ∃ begins, s.ending = .failed begins e) ∧
      (fault? r = some .exhausted → c.ending ≠ s.ending) := by
  rcases h.ending with hlive | ⟨hc, he, hne⟩
  · have hsteps := q.steps (S := S) (rulesAt_steps S calls)
    have hkeeps := hsteps.keeps hs.regular h
    rw [hr] at hkeeps
    cases r with
    | ok a c' =>
      have hsame : c'.ending = s.ending := hkeeps.2.trans hlive
      exact ⟨hkeeps.1, iff_of_false (· hsame) fun h => h.elim (· hlive) nofun, nofun, nofun⟩
    | error e c' =>
      rcases hkeeps.2 with ⟨hdrawn, hspent⟩ | ⟨hdrawn, hsame⟩
      · obtain ⟨begins, e', hfailed, rfl⟩ := hsteps.exists_failed hs hends h hlive hr hdrawn
        have hmet : c'.ending ≠ s.ending := by
          intro heq
          cases (hspent.symm.trans heq).trans hfailed
        refine ⟨hkeeps.1, iff_of_true hmet (.inr ⟨e', rfl⟩), fun e he => ?_, nofun⟩
        cases he
        exact ⟨begins, hfailed⟩
      · refine ⟨hkeeps.1, iff_of_false (· (hsame.trans hlive)) ?_, ?_, ?_⟩
        · rintro (hne | ⟨e', ⟨⟩⟩)
          · exact hne hlive
          · exact hdrawn trivial
        · rintro e' ⟨⟩
          exact absurd trivial hdrawn
        · rintro ⟨⟩
          exact absurd trivial hdrawn
  · have hfail := q.asks hS hcalls c hc he
    obtain rfl := hr.symm.trans hfail
    have hspent : c.ending ≠ s.ending := fun heq => hne (heq.symm.trans he)
    exact ⟨h, iff_of_true hspent (.inl hspent), nofun, fun _ => hspent⟩

/-- **A reader keeps its tokens**, whatever it is asked for and however it answers. The fault of the text
was met if and only if this was among the answers. -/
theorem answers_keep (h : Buffered s c) (requests : List Request) :
    Buffered s (answers S (rulesAt S calls) requests c).2 ∧
      ((answers S (rulesAt S calls) requests c).2.ending ≠ s.ending ↔
        c.ending ≠ s.ending ∨
          ∃ e, some (.lexical e) ∈ (answers S (rulesAt S calls) requests c).1) ∧
      ∀ e, some (.lexical e) ∈ (answers S (rulesAt S calls) requests c).1 →
        ∃ begins, s.ending = .failed begins e := by
  induction requests generalizing c with
  | nil => exact ⟨h, ⟨.inl, fun h => h.elim id fun ⟨_, he⟩ => absurd he List.not_mem_nil⟩, nofun⟩
  | cons q requests ih =>
    obtain ⟨hbuffered, hmet, hfailed, -⟩ := q.met_iff hS hcalls hs hends h rfl
    obtain ⟨hbuffered', hmet', hfailed'⟩ := ih hbuffered
    refine ⟨hbuffered', hmet'.trans ?_, fun e he => ?_⟩
    · rw [hmet, or_assoc, ← exists_or]
      exact or_congr_right (exists_congr fun e => by rw [answers, List.mem_cons, eq_comm])
    · rcases List.mem_cons.1 he with he | he
      · exact hfailed e he.symm
      · exact hfailed' e he

end

theorem lookahead?_of_rest (h : c.rest = []) : c.lookahead? = none := by
  unfold lookahead?
  rw [h]
  split <;> rfl

/-- Looking at a token takes none. -/
theorem before_peek (c : Cursor) : (afterwards (peek c)).before = c.before := by
  unfold peek
  split
  · split <;> rfl
  · split <;> rfl

/-- What is taken with the token `t`, which is nothing at the end of input. -/
def takenWith (t : Token) (before : List Token) : List Token :=
  if t.kind = .endOfInput then before else t :: before

/-- The token that is answered is taken, unless it is the end of input. -/
theorem before_of_advance {c' : Cursor} (hr : Regular c) (h : advance c = .ok t c') :
    c'.before = takenWith t c.before := by
  obtain ⟨c₁, hpeek, hbefore⟩ : ∃ c₁, peek c = .ok t c₁ ∧
      c' = if t.kind = .endOfInput then c₁ else c₁.taken := by
    unfold advance at h
    rw [bind_run] at h
    split at h
    · next u c₁ hpeek =>
      split at h
      · next hu =>
        cases h
        exact ⟨_, hpeek, (if_pos hu).symm⟩
      · next hu =>
        cases h
        exact ⟨_, hpeek, (if_neg hu).symm⟩
    · cases h
  have hsame := before_peek c
  rw [hpeek] at hsame
  obtain ⟨-, rest, hrest⟩ := peeked_of_peek hr hpeek
  rw [hbefore, takenWith, ← hsame]
  split
  · rfl
  · exact before_taken hrest

/-- The token that is demanded is of the kind that was asked for, and it is taken. -/
theorem before_of_expect_ok {kind : TokenKind} {c' : Cursor} (hr : Regular c)
    (h : expect kind c = .ok t c') : t.kind = kind ∧ c'.before = takenWith t c.before := by
  have hsame := before_peek c
  unfold expect at h
  rw [bind_run] at h
  cases hpeek : peek c with
  | error e c₁ =>
    rw [hpeek] at h
    cases h
  | ok u c₁ =>
    rw [hpeek] at h hsame
    dsimp only at h
    obtain ⟨hpeeked, rest, hrest⟩ := peeked_of_peek hr hpeek
    split at h
    · next hu =>
      -- What was looked at is what is taken.
      have htaken : t = u ∧ c'.before = takenWith u c₁.before := by
        unfold takenWith
        by_cases hend : u.kind = .endOfInput
        · rw [advance_endOfInput hrest hend, if_pos hpeeked] at h
          cases h
          exact ⟨rfl, (if_pos hend).symm⟩
        · rw [advance_cons hrest hend, if_pos hpeeked] at h
          cases h
          exact ⟨rfl, (before_taken hrest).trans (if_neg hend).symm⟩
      obtain ⟨rfl, hbefore⟩ := htaken
      exact ⟨hu, hbefore.trans (congrArg _ hsame)⟩
    · cases h

/-- A failing demand for a token of one kind takes nothing. -/
theorem before_of_expect {kind : TokenKind} {e : ReadFault} {c' : Cursor} (hr : Regular c)
    (h : expect kind c = .error e c') : c'.before = c.before := by
  have hbefore := before_peek c
  unfold expect at h
  rw [bind_run] at h
  cases hpeek : peek c with
  | error e' c₁ =>
    rw [hpeek] at h hbefore
    cases h
    exact hbefore
  | ok t c₁ =>
    rw [hpeek] at h hbefore
    obtain ⟨-, rest, hrest⟩ := peeked_of_peek hr hpeek
    dsimp only at h
    split at h
    · -- A token that was looked at can be taken.
      by_cases ht : t.kind = .endOfInput
      · rw [advance_endOfInput hrest ht] at h
        cases h
      · rw [advance_cons hrest ht] at h
        cases h
    · cases h
      exact hbefore

/-- What a reader of the text is asked for, by the rules of the language. -/
def Request.readIn (text : List Char) (q : Request) : ReadM q.Answer :=
  let S := Setting.ofStream .standard (Stream.ofText .standard text)
  q.read S S.rules

/-- A reader of the text that is asked for one thing after the other. -/
def answersIn (text : List Char) (requests : List Request) : List (Option ReadFault) × Cursor :=
  let s := Stream.ofText .standard text
  let S := Setting.ofStream .standard s
  answers S S.rules requests (ofStream s)

/-- **No token is lost or read twice**: after any requests, the tokens that were taken, followed by the
one that is looked at, are those that were drawn, and these are the first tokens of the text. Looking at a
token takes none, and a token that is answered as the next one or as one of a demanded kind was taken just
then. The end of input is never taken, and a failing demand takes nothing. A reader runs out of tokens only
after it met a fault of the text, and then whatever it is asked for. -/
theorem answersIn_lose_nothing (text : List Char) (requests : List Request) :
    ∃ faults c, answersIn text requests = (faults, c) ∧
      c.pulled = c.before.reverse ++ c.lookahead?.toList ∧
      c.pulled <+: (Stream.ofText .standard text).tokens ∧
      (∀ t ∈ c.before, t.kind ≠ .endOfInput) ∧
      (afterwards (peek c)).before = c.before ∧
      (∀ t c', advance c = .ok t c' → c'.before = takenWith t c.before) ∧
      (∀ kind t c', expect kind c = .ok t c' →
        t.kind = kind ∧ c'.before = takenWith t c.before) ∧
      (∀ kind e c', expect kind c = .error e c' → c'.before = c.before) ∧
      (∀ (q : Request) c', q.readIn text c = .error .exhausted c' →
        ∃ e, some (.lexical e) ∈ faults) ∧
      ∀ e, some (.lexical e) ∈ faults →
        (∃ begins, (Stream.ofText .standard text).ending = .failed begins e) ∧
          c.lookahead? = none ∧ ∀ q : Request, q.readIn text c = .error .exhausted c := by
  have hS : 0 < (Setting.ofStream .standard (Stream.ofText .standard text)).rounds := Nat.succ_pos _
  have hcalls : 1 < nestingLimit := by decide
  have hs := Stream.proper text
  have hends : (Stream.ofText .standard text).ending = .exhausted ∨
      ∃ begins e, (Stream.ofText .standard text).ending = .failed begins e :=
    (Stream.ofText_cuts .standard text).ending_cases.imp_right
      fun ⟨begins, e, he, _⟩ => ⟨begins, e, he⟩
  obtain ⟨hbuffered, hmet, hfailed⟩ := answers_keep hS hcalls hs hends (ofStream_buffered _) requests
  have hregular := hbuffered.regular hs.regular
  refine ⟨_, _, rfl, hbuffered.pulled, hbuffered.pulled_prefix, hbuffered.taken, before_peek _,
    fun _ _ => before_of_advance hregular, fun _ _ _ => before_of_expect_ok hregular,
    fun _ _ _ => before_of_expect hregular, fun q c' hq => ?_, fun e he => ?_⟩
  · obtain ⟨-, -, -, hexhausted⟩ := q.met_iff hS hcalls hs hends hbuffered hq
    exact (hmet.1 (hexhausted rfl)).elim (absurd rfl) id
  · rcases hbuffered.ending with hlive | ⟨hrest, hexhausted, -⟩
    · exact absurd hlive (hmet.2 (.inr ⟨e, he⟩))
    · exact ⟨hfailed e he, lookahead?_of_rest hrest, fun q => q.asks hS hcalls _ hrest hexhausted⟩

/-- After a character that begins no token, nothing more is read. -/
theorem answersIn_lose_nothing_behind_fault :
    some (.lexical ⟨.unexpectedCharacter '@', .ofLength 4 1⟩) ∈
        (answersIn "f(1 @)".toList [.expression 0, .peek]).1 ∧
      ∀ q : Request, q.readIn "f(1 @)".toList (answersIn "f(1 @)".toList [.expression 0, .peek]).2 =
        .error .exhausted (answersIn "f(1 @)".toList [.expression 0, .peek]).2 := by
  have hfault : some (.lexical ⟨.unexpectedCharacter '@', .ofLength 4 1⟩) ∈
      (answersIn "f(1 @)".toList [.expression 0, .peek]).1 := by
    decide +kernel
  obtain ⟨faults, c, heq, -, -, -, -, -, -, -, -, hspent⟩ :=
    answersIn_lose_nothing "f(1 @)".toList [.expression 0, .peek]
  rw [heq] at hfault ⊢
  exact ⟨hfault, (hspent _ hfault).2.2⟩

end Cursor

end Curly
