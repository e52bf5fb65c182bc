import Curly.Proofs.Grammar.Alongside
import Curly.Proofs.Grammar.Faults
import Curly.Proofs.Token.Cutoff

/-!
# What decides the first fault

The first fault of a text is decided by the text up to its end. Whatever comes on the lines below, be it
more text of the language or not, the same fault is met at the same place.

## Main statements

* `TextUnit.read_error_enough`: faults do not depend on the bound on repetitions.
* `Tree.read_error_decided`: the first fault of a text that is cut off behind it and continued.

## Design notes

Tokens are drawn when they are looked at and not before. A reading that fails at a token has drawn none
behind it, so that these may be replaced, by `Cursor.Steps.local`. With the number of tokens the bound on
repetitions changes, which is why both readings are compared with one under a bound above those of both.
-/

namespace Curly

open Cursor

/-- A fault other than the depth of a text is met under every bound on repetitions that is enough for its
tokens. -/
theorem TextUnit.read_error_enough {S S' : Setting} {d : Nat} {u : TextUnit} {c c' : Cursor} {e : ReadFault}
    (hS : S.table = .standard) (hS' : S'.table = .standard) (hr : Regular c) (hc : Legible c.rest)
    (hrounds : c.rest.length < S'.rounds) (h : u.read S (rulesAt S d) c = .error e c')
    (he : e ≠ .tooDeep) : ∃ c₁, u.read S' (rulesAt S' d) c = .error e c₁ := by
  let S₁ : Setting := ⟨.standard, S.rounds + S'.rounds⟩
  have hwithin : S.Within S₁ := ⟨hS, Nat.le_add_right _ _⟩
  have hupTo := read_upTo hwithin (rulesAt_upTo hwithin (Nat.le_refl d)) u
  have hmore : u.read S₁ (rulesAt S₁ d) c = .error e c' := by
    rcases hupTo c with ⟨_, _, rfl, hdeep⟩ | hsame
    · cases h.symm.trans hdeep
      exact absurd rfl he
    · exact hsame.symm.trans h
  have habreast : Abreast Eq S₁ S' false c.rest c.rest :=
    ⟨.refl (fun _ => rfl) _, hc, hc, Nat.lt_of_lt_of_le hrounds (Nat.le_add_left _ _), hrounds⟩
  have hfare := read_alongside rfl hS' d u habreast c c hr rfl rfl rfl
  rw [hmore] at hfare
  generalize u.read S' (rulesAt S' d) c = x at hfare
  cases hfare with
  | error halike => exact ⟨_, by rw [halike.eq]⟩

/-- The tokens up to the end of one of them stay if the text is cut off there and continued on a new
line. -/
theorem Stream.tokens_continued {text : List Char} {us rest : List Token} {t : Token}
    (h : (ofText .standard text).tokens = us ++ t :: rest) (ht : t.kind ≠ .endOfInput)
    (more : List Char) : ∃ tail,
      (ofText .standard (text.take t.span.stop ++ '\n' :: more)).tokens = us ++ t :: tail := by
  have hbreaks : Breaks ('\n' :: more) := by
    rintro _ ⟨⟩
    decide
  have hmore := (ofText_cuts .standard ('\n' :: more)).shift t.span.stop
  rw [Nat.zero_add] at hmore
  have hsplice := (ofText_cuts .standard text).splice h ht hbreaks hmore
  exact ⟨_, congrArg Stream.tokens ((ofText_cuts _ _).unique hsplice)⟩

namespace Tree

variable {u : TextUnit} {text : List Char} {c : Cursor}

/-- A text that begins with the same tokens up to the one that does not fit is rejected there as well. -/
theorem read_error_of_tokens {text' : List Char} {e : SyntaxError} {us rest tail : List Token}
    {t : Token} (h : read u text = .error (.syntactic e) c)
    (hts : (Stream.ofText .standard text).tokens = us ++ t :: rest) (hrest : c.rest = t :: rest)
    (hts' : (Stream.ofText .standard text').tokens = us ++ t :: tail) :
    ∃ c', read u text' = .error (.syntactic e) c' := by
  let S := Setting.ofStream .standard (Stream.ofText .standard text)
  have herror : u.read S (rulesAt S nestingLimit) (.ofStream (Stream.ofText .standard text)) =
      .error (.syntactic e) c := h
  have hleft : left (u.read S (rulesAt S nestingLimit) (.ofStream (Stream.ofText .standard text))) =
      [t] ++ rest := by
    rw [herror]
    exact hrest
  have hregular : Regular (.ofStream (Stream.ofText .standard text)) := (Stream.proper text).regular
  rw [List.append_cons] at hts
  have hlocal := (TextUnit.read_steps S (rulesAt_steps S nestingLimit) u).local hregular hts
    (List.cons_ne_nil _ _) hleft tail (Stream.ofText .standard text').ending
  have hother : (Cursor.ofStream (Stream.ofText .standard text)).leave (us ++ [t] ++ tail)
      (Stream.ofText .standard text').ending = .ofStream (Stream.ofText .standard text') := by
    rw [← List.append_cons, ← hts']
    rfl
  rw [herror, hother] at hlocal
  have hregular' : Regular (.ofStream (Stream.ofText .standard text')) :=
    (Stream.proper text').regular
  exact TextUnit.read_error_enough rfl rfl hregular' (Stream.legible text') (Nat.lt_succ_self _) hlocal
    nofun

/-- The first token that does not fit decides a fault. -/
theorem read_error_at_token {e : SyntaxError} (h : read u text = .error (.syntactic e) c)
    (hcause : ∀ k, e.cause ≠ .unclosed k) {t : Token} (ht : t ∈ (Stream.ofText .standard text).tokens)
    (hkind : t.kind ≠ .endOfInput) (hspan : e.span = t.span) (more : List Char) :
    ∃ c', read u (text.take e.span.stop ++ '\n' :: more) = .error (.syntactic e) c' := by
  obtain ⟨us, _, hts, hpoints, -⟩ := read_stuck h
  obtain ⟨t', rest, hrest, hspan'⟩ : ∃ t' rest, c.rest = t' :: rest ∧ e.span = t'.span := by
    generalize c.rest = rest at hpoints
    cases hpoints with
    | token => exact ⟨_, _, rfl, rfl⟩
    | unclosed => exact absurd rfl (hcause _)
  rw [hrest] at hts
  -- A place tells which token it is of.
  obtain ⟨before, after, hsplit⟩ := List.append_of_mem ht
  obtain ⟨-, rfl, -⟩ := Stream.split_unique hsplit hts (hspan.symm.trans hspan')
  obtain ⟨tail, hts'⟩ := Stream.tokens_continued hts hkind more
  rw [hspan]
  exact read_error_of_tokens h hts hrest hts'

/-- What is faulty in the characters of a text decides a fault. -/
theorem read_error_in_characters {e : LexError} (h : read u text = .error (.lexical e) c)
    (hcause : e.cause ≠ .unterminatedString) (more : List Char) :
    read u (text.take e.span.stop ++ '\n' :: more) = .error (.lexical e) c := by
  obtain ⟨begins, e', he, hending, -⟩ := read_error_drawn h trivial
  cases he
  rw [← h]
  unfold read readWithin
  rw [Stream.ofText_cutoff hending hcause more]

/-- **The first fault is decided by the text up to it.** Cut a text off behind its fault and continue it
on a new line in any way. If the fault is one of the grammar at a token other than the end of input, and
not that a bracket is never closed, then the new text has the same fault at the same place. If it is one
of the characters, and not that a string is never closed, so has the new text. -/
theorem read_error_decided {fault : ReadFault} (h : read u text = .error fault c) (more : List Char) :
    (∀ e, fault = .syntactic e → (∀ k, e.cause ≠ .unclosed k) →
      (∃ t ∈ (Stream.ofText .standard text).tokens, t.kind ≠ .endOfInput ∧ e.span = t.span) →
        ∃ c', read u (text.take e.span.stop ++ '\n' :: more) = .error fault c') ∧
    ∀ e, fault = .lexical e → e.cause ≠ .unterminatedString →
      ∃ c', read u (text.take e.span.stop ++ '\n' :: more) = .error fault c' := by
  constructor
  · rintro e rfl hcause ⟨t, ht, hkind, hspan⟩
    exact read_error_at_token h hcause ht hkind hspan more
  · rintro e rfl hcause
    exact ⟨c, read_error_in_characters h hcause more⟩

/-- A parenthesis where an operand is missing, in front of a string that is never closed, and a character
without meaning in front of a statement that makes no sense. -/
theorem read_error_decided_on_first_line :
    (∃ c c', read .statements "f(1 + ) $".toList = .error (.syntactic
        ⟨.expectedExpression ⟨.rightParen, .ofLength 6 1, .none, [')']⟩, .ofLength 6 1⟩) c ∧
      read .statements "f(1 + )\n\"open".toList = .error (.syntactic
        ⟨.expectedExpression ⟨.rightParen, .ofLength 6 1, .none, [')']⟩, .ofLength 6 1⟩) c') ∧
    ∃ c c', read .single "x = $ + )".toList =
        .error (.lexical ⟨.unexpectedCharacter '$', .ofLength 4 1⟩) c ∧
      read .single "x = $\nvar )".toList =
        .error (.lexical ⟨.unexpectedCharacter '$', .ofLength 4 1⟩) c' := by
  have hfault : fault? (read .statements "f(1 + ) $".toList) = some (.syntactic
      ⟨.expectedExpression ⟨.rightParen, .ofLength 6 1, .none, [')']⟩, .ofLength 6 1⟩) := by
    decide +kernel
  have hfault' : fault? (read .single "x = $ + )".toList) =
      some (.lexical ⟨.unexpectedCharacter '$', .ofLength 4 1⟩) := by
    decide +kernel
  have htoken : ∃ t ∈ (Stream.ofText .standard "f(1 + ) $".toList).tokens,
      t.kind ≠ .endOfInput ∧ .ofLength 6 1 = t.span := by
    decide +kernel
  obtain ⟨c, h⟩ := exists_of_fault? hfault
  obtain ⟨c', h'⟩ := exists_of_fault? hfault'
  obtain ⟨c₁, h₁⟩ := (read_error_decided h "\"open".toList).1 _ rfl nofun htoken
  obtain ⟨c₁', h₁'⟩ := (read_error_decided h' "var )".toList).2 _ rfl nofun
  exact ⟨⟨c, c₁, h, h₁⟩, c', c₁', h', h₁'⟩

end Tree

end Curly
