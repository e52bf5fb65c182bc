import Curly.Tree.Fault

/-!
# The cursor

Trees are read from a stream of tokens with a cursor. The cursor looks at one token ahead. A token is
drawn from the text when it is first looked at and not before, so that a fault further right is met
only by a reader that gets there.

## Main definitions

* `Cursor`: the tokens taken and the tokens left.
* `Cursor.Note`: what a reader writes down on its way.
* `ReadM`: readings of a cursor.
* `Cursor.peek`, `Cursor.advance`, `Cursor.nextIs`, `Cursor.expect`: the steps that all reading is made of.
-/

namespace Curly

/-- What a reader writes down on its way. -/
inductive Cursor.Note where
  /-- A token was drawn from the text. -/
  | token (t : Token)
  /-- A declaration was read. -/
  | declaration (name : String) (span : Span)
deriving DecidableEq

/-- The state of a reading. -/
structure Cursor where
  /-- The tokens that were taken, the latest first. -/
  before : List Token
  /-- The tokens that were not taken, from left to right. -/
  rest : List Token
  /-- What comes after them. -/
  ending : Ending
  /-- Whether the first of the tokens that are left was drawn already. -/
  peeked : Bool
  /-- How far the text was drawn: the end of the last token, or the beginning of what is faulty. -/
  position : Nat
  /-- What was written down, the latest first. -/
  notes : List Cursor.Note
deriving DecidableEq

/-- Readings of a cursor. A reading that fails leaves the cursor where it failed. -/
abbrev ReadM := EStateM ReadFault Cursor

namespace Cursor

/-- The cursor at the beginning of a stream. -/
def ofStream (s : Stream) : Cursor := ⟨[], s.tokens, s.ending, false, 0, []⟩

/-- The token that was drawn and not taken yet. -/
def lookahead? (c : Cursor) : Option Token := if c.peeked then c.rest.head? else none

/-- The cursor after drawing `t`, the first of the tokens that are left. -/
def drawn (t : Token) (c : Cursor) : Cursor :=
  { c with peeked := true, position := t.span.stop, notes := .token t :: c.notes }

/-- The cursor after meeting a fault, which is met only once. -/
def failedAt (offset : Nat) (c : Cursor) : Cursor :=
  { c with ending := .exhausted, position := offset }

/-- The next token, which is not taken. -/
def peek : ReadM Token := fun c =>
  match c.rest with
  | t :: _ => .ok t (if c.peeked then c else c.drawn t)
  | [] =>
    match c.ending with
    | .exhausted => .error .exhausted c
    | .failed offset e => .error (.lexical e) (c.failedAt offset)
    | .unmatched offset => .error .unmatched (c.failedAt offset)
    | .stalled t => .ok t ({ c with rest := [t] }.drawn t)

/-- The cursor after taking its next token. -/
def taken (c : Cursor) : Cursor :=
  match c.rest with
  | [] => c
  | t :: rest => { c with before := t :: c.before, rest := rest, peeked := false }

/-- Takes the next token. The end of input is never taken. -/
def advance : ReadM Token := do
  let t ← peek
  if t.kind = .endOfInput then return t
  else
    modify taken
    return t

/-- Whether the next token is of the given kind. -/
def nextIs (kind : TokenKind) : ReadM Bool := do
  let t ← peek
  return t.kind == kind

/-- Fails at a token. -/
def failAt {α : Type} (t : Token) (cause : SyntaxCause) : ReadM α :=
  throw (.syntactic ⟨cause, t.span⟩)

/-- Takes the next token, which has to be of the given kind. -/
def expect (kind : TokenKind) : ReadM Token := do
  let t ← peek
  if t.kind = kind then advance else failAt t (.expectedToken kind t)

/-- Writes something down. -/
def note (n : Note) : ReadM PUnit := modify fun c => { c with notes := n :: c.notes }

section

variable {c : Cursor} {t : Token} {rest : List Token}

@[simp] theorem rest_drawn : (c.drawn t).rest = c.rest := rfl

@[simp] theorem before_drawn : (c.drawn t).before = c.before := rfl

@[simp] theorem ending_drawn : (c.drawn t).ending = c.ending := rfl

@[simp] theorem peeked_drawn : (c.drawn t).peeked = true := rfl

theorem rest_taken (h : c.rest = t :: rest) : c.taken.rest = rest := by
  simp only [taken, h]

theorem before_taken (h : c.rest = t :: rest) : c.taken.before = t :: c.before := by
  simp only [taken, h]

theorem lookahead?_eq_none (h : c.peeked = false) : c.lookahead? = none := by
  simp only [lookahead?, h, Bool.false_eq_true, if_false]

/-- The next token is the first of those that are left. -/
theorem peek_cons (h : c.rest = t :: rest) :
    peek c = .ok t (if c.peeked then c else c.drawn t) := by
  simp only [peek, h]

/-- Nothing can be drawn from a stream that is exhausted. -/
theorem peek_of_exhausted (hr : c.rest = []) (he : c.ending = .exhausted) :
    peek c = .error .exhausted c := by
  simp only [peek, hr, he]

/-- A fault of the text is met by the first reader that needs the token there. -/
theorem peek_of_failed {offset : Nat} {e : LexError} (hr : c.rest = [])
    (he : c.ending = .failed offset e) :
    peek c = .error (.lexical e) (c.failedAt offset) := by
  simp only [peek, hr, he]

/-- Looking a second time shows the same and changes nothing. -/
theorem peek_of_peeked (h : c.rest = t :: rest) (hp : c.peeked = true) : peek c = .ok t c := by
  rw [peek_cons h, if_pos hp]

theorem advance_cons (h : c.rest = t :: rest) (hk : t.kind ≠ .endOfInput) :
    advance c = .ok t (taken (if c.peeked then c else c.drawn t)) := by
  simp only [advance, bind, EStateM.bind, peek_cons h, if_neg hk]
  rfl

theorem advance_endOfInput (h : c.rest = t :: rest) (hk : t.kind = .endOfInput) :
    advance c = .ok t (if c.peeked then c else c.drawn t) := by
  simp only [advance, bind, EStateM.bind, peek_cons h, if_pos hk]
  rfl

end

/-- Repeats a step until it comes to a result, at most `rounds` times. The step is given what the one
before it came to. -/
def repeatUpTo {α β : Type} (step : α → ReadM (α ⊕ β)) : (rounds : Nat) → α → ReadM β
  | 0, _ => throw .tooDeep
  | rounds + 1, a => do
    match ← step a with
    | .inl next => repeatUpTo step rounds next
    | .inr result => return result

end Cursor

end Curly
