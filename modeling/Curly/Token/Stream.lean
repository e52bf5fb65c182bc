import Curly.Token.Lexeme

/-!
# Token streams

A text as its tokens from left to right, up to its end or to the first fault.

## Main definitions

* `Ending`: what comes after the tokens.
* `Stream`: tokens and their ending.
* `Stream.ofText`: the stream of a text under a table.
-/

namespace Curly

/-- What comes after the tokens of a stream. -/
inductive Ending where
  /-- Nothing: the last token was the end of input, or the fault after it was met before. -/
  | exhausted
  /-- A fault. What is faulty begins at the given offset. -/
  | failed (offset : Nat) (error : LexError)
  /-- At the given offset something that only a symbol could match, under a table that has none. -/
  | unmatched (offset : Nat)
  /-- A token without characters, again and again, since the text after it is the text before it. -/
  | stalled (token : Token)
deriving DecidableEq

/-- The tokens of a text and what comes after them. -/
structure Stream where
  /-- The tokens, from left to right. -/
  tokens : List Token
  /-- What comes after them. -/
  ending : Ending
deriving DecidableEq

namespace Stream

/-- The stream with one more token in front. -/
def cons (t : Token) (s : Stream) : Stream := ⟨t :: s.tokens, s.ending⟩

/-- The stream of the rest of a text, which begins at `offset`. The next `skip` characters belong to
what was read before. -/
def scan (table : Table) : (skip offset : Nat) → List Char → Stream
  | _, offset, [] => ⟨[Token.endOfInput offset], .exhausted⟩
  | skip + 1, offset, _ :: rest => scan table skip (offset + 1) rest
  | 0, offset, c :: rest =>
    match Reading.ofText table c rest with
    | .space length => scan table (length - 1) (offset + 1) rest
    | .lexeme l =>
      let token : Token :=
        ⟨l.kind, .ofLength offset l.length, l.payload, (c :: rest).take l.length⟩
      if l.length = 0 then ⟨[], .stalled token⟩
      else cons token (scan table (l.length - 1) (offset + 1) rest)
    | .fault cause start length =>
      ⟨[], .failed offset ⟨cause, .ofLength (offset + start) length⟩⟩
    | .unmatched => ⟨[], .unmatched offset⟩

/-- The stream of a text. -/
def ofText (table : Table) (text : List Char) : Stream := scan table 0 0 text

/-- The place that reading has reached once the whole stream was taken: the end of its last token, or
where the fault begins. -/
def position (s : Stream) : Nat :=
  match s.ending with
  | .failed offset _ => offset
  | .unmatched offset => offset
  | _ => (s.tokens.getLast?.map fun t => t.span.stop).getD 0

/-- The tokens that were read off characters of the text: all but the end of input that completes the
stream. -/
def written (s : Stream) : List Token :=
  match s.ending with
  | .exhausted => s.tokens.dropLast
  | _ => s.tokens

end Stream

end Curly
