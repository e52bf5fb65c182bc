import Curly.Proofs.Grammar.FirstError

/-!
# Faults of texts

Every fault that a text is rejected for is a fault of the text: it lies in its characters, in its grammar
or in its depth. The faults that only a defective table or a rule out of its place could bring about never
come up.

## Main definitions

* `ReadFault.OfText`: a fault of a text, at a place in it.

## Main statements

* `Tree.read_error_cases`: texts are rejected for such faults only.
-/

namespace Curly

open Cursor

/-- The fault is one of a text with `n` characters. -/
inductive ReadFault.OfText (n : Nat) : ReadFault → Prop where
  | lexical {e : LexError} (h : e.span.stop ≤ n) : OfText n (.lexical e)
  | syntactic {e : SyntaxError} (h : e.span.stop ≤ n) : OfText n (.syntactic e)
  | tooDeep : OfText n .tooDeep

/-- A fault has the place of one of the tokens. -/
theorem SyntaxError.Points.exists_token {us rest : List Token} {e : SyntaxError}
    (h : e.Points us rest) : ∃ t ∈ us ++ rest, e.span = t.span := by
  cases h with
  | token => exact ⟨_, List.mem_append_right us (List.mem_cons_self ..), rfl⟩
  | @unclosed opener k eof rest hopen =>
    obtain ⟨outer, houter⟩ := hopen []
    have hmem : opener ∈ Token.openAfter [] us := houter ▸ List.mem_cons_self ..
    exact ⟨opener, List.mem_append_left _ ((Token.mem_of_openAfter hmem).resolve_left nofun), rfl⟩

namespace Tree

variable {u : TextUnit} {text : List Char} {fault : ReadFault} {c : Cursor}

/-- The end of input is there to be looked at again and again. -/
theorem ready_ofStream (text : List Char) : Ready (.ofStream (Stream.ofText .standard text)) :=
  (Stream.proper text).ends

/-- A fault that is met where a token is drawn is the one that ends the stream. It lies in the characters
of the text. -/
theorem read_error_drawn (h : read u text = .error fault c) (hdrawn : fault.Drawn) :
    ∃ begins e, fault = .lexical e ∧ (Stream.ofText .standard text).ending = .failed begins e ∧
      e.span.stop ≤ text.length := by
  let S := Setting.ofStream .standard (Stream.ofText .standard text)
  have hobeys := (TextUnit.read_steps S (rulesAt_steps S nestingLimit) u).obeys
    (c := .ofStream (Stream.ofText .standard text)) (Stream.proper text).regular
  rw [show u.read S (rulesAt S nestingLimit) _ = _ from h] at hobeys
  obtain ⟨-, hmeets, hexhausted⟩ := hobeys.2 hdrawn
  have hending : (Cursor.ofStream (Stream.ofText .standard text)).ending =
      (Stream.ofText .standard text).ending := rfl
  rw [hending] at hmeets
  rcases (Stream.ofText_cuts .standard text).ending_cases with he | ⟨begins, e, he, hle⟩
  · rw [he] at hmeets
    cases hmeets
    exact absurd rfl (hexhausted (ready_ofStream text))
  · rw [he] at hmeets
    cases hmeets
    exact ⟨begins, e, rfl, he, Nat.zero_add text.length ▸ hle⟩

/-- A text without faults in its characters is rejected for its grammar or for its depth. -/
theorem read_error_exhausted (hending : (Stream.ofText .standard text).ending = .exhausted)
    (h : read u text = .error fault c) : fault = .tooDeep ∨ ∃ e, fault = .syntactic e := by
  rcases read_fails h with hdrawn | hdeep | ⟨e, he, -⟩
  · obtain ⟨_, _, -, hfailed, -⟩ := read_error_drawn h hdrawn
    cases hending.symm.trans hfailed
  · exact .inl hdeep
  · exact .inr ⟨e, he⟩

/-- **Texts are only rejected for their own faults**, whose places lie within them. -/
theorem read_error_cases (h : read u text = .error fault c) : fault.OfText text.length := by
  rcases read_fails h with hdrawn | rfl | ⟨e, rfl, us, more, hts, hpoints, -⟩
  · obtain ⟨_, e, rfl, -, he⟩ := read_error_drawn h hdrawn
    exact .lexical he
  · exact .tooDeep
  · obtain ⟨t, ht, hspan⟩ := hpoints.exists_token
    rw [← hts] at ht
    have := (Stream.ofText_cuts .standard text).stop_le t ht
    exact .syntactic (hspan ▸ Nat.zero_add text.length ▸ this)

end Tree

end Curly
