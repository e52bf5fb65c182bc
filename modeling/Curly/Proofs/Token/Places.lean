import Curly.Proofs.Token.Segmentation

/-!
# What stands under tokens and between them

Every character of a text stands under a token, or it is white space between tokens.

## Main statements

* `Lexeme.Spells.eq_text`: the spelling of all kinds that have only one.
* `Stream.slice_token`: under a token stand the characters that spell it.
* `Stream.slice_gap`: between two tokens in a row there is only white space.
* `Stream.slice_enclosed`: what stands from one token to another one, given what stands between them.
-/

namespace Curly

/-- A part of a text is made up of what stands in front of a place in it and what stands behind. -/
theorem Span.slice_split (s : Span) {i : Nat} (hstart : s.start ≤ i) (hstop : i ≤ s.stop)
    (text : List Char) :
    s.slice text = (Span.mk s.start i hstart).slice text ++ (Span.mk i s.stop hstop).slice text := by
  have hlength : s.length = (i - s.start) + (s.stop - i) := by
    rw [length]
    omega
  have hdrop : s.start + (i - s.start) = i := by omega
  simp only [slice]
  rw [hlength, List.take_add, List.drop_drop, hdrop]
  rfl

/-- What stands under a span that is not empty begins with what stands at its place. -/
theorem Span.head?_slice {s : Span} (h : 0 < s.length) (text : List Char) :
    (s.slice text).head? = (text.drop s.start).head? := by
  rw [slice, List.head?_take, if_neg (Nat.ne_of_gt h)]

/-- A kind with a spelling of its own is spelled in this way. -/
theorem Lexeme.Spells.eq_text {chars : List Char} {kind : TokenKind} {payload : Payload}
    (h : Spells chars kind payload) (hkind : kind.isGeneric = false) : chars = kind.text.toList := by
  cases h with
  | keyword _ _ h =>
    have hall : ∀ p ∈ Table.standard.keywords, p.1 = p.2.text := by decide
    have htext := hall _ h
    dsimp only at htext
    rw [← htext, String.toList_ofList]
  | symbol h =>
    have hall : ∀ p ∈ Table.standard.symbols, p.2.isGeneric = false → p.1 = p.2.text := by decide
    exact congrArg String.toList (hall _ h hkind)
  | _ => cases hkind

namespace Stream

open Lexeme

variable {offset : Nat} {text : List Char} {s : Stream} {t u : Token} {us r : List Token}

/-- The tokens of a text are spelled by the characters under them. -/
theorem Segmented.spelled (h : Segmented offset text s) (ht : t ∈ s.tokens)
    (hkind : t.kind ≠ .endOfInput) :
    offset ≤ t.span.start ∧ Spells t.lexeme t.kind t.payload ∧
      t.span.length = t.lexeme.length ∧
      (text.drop (t.span.start - offset)).take t.span.length = t.lexeme := by
  induction h with
  | finish =>
    obtain rfl := List.mem_singleton.1 ht
    exact absurd rfl hkind
  | @token offset blanks chars rest kind payload s _ hspells _ _ ih =>
    rcases List.mem_cons.1 ht with rfl | ht
    · refine ⟨Nat.le_add_right _ _, hspells, Span.length_ofLength _ _, ?_⟩
      rw [Span.start_ofLength, Span.length_ofLength, Nat.add_sub_cancel_left, List.drop_left,
        List.take_left]
    · obtain ⟨hle, hspells', hlength, htake⟩ := ih ht
      have hdrop : t.span.start - offset =
          blanks.length + (chars.length + (t.span.start - (offset + blanks.length + chars.length))) := by
        omega
      refine ⟨by omega, hspells', hlength, ?_⟩
      rw [hdrop, List.drop_length_add_append, List.drop_length_add_append, htake]
  | fault => cases ht

/-- White space is all that stands in front of the first token. -/
theorem Segmented.lead (h : Segmented offset text s) (hs : s.tokens = u :: r) :
    ∀ c ∈ text.take (u.span.start - offset), isSpace c = true := by
  cases h with
  | finish hblanks =>
    obtain ⟨rfl, -⟩ := List.cons.inj hs
    exact fun c hc => hblanks c (List.mem_of_mem_take hc)
  | token hblanks =>
    obtain ⟨rfl, -⟩ := List.cons.inj hs
    rwa [Span.start_ofLength, Nat.add_sub_cancel_left, List.take_left]
  | fault => cases hs

/-- White space is all that stands between two tokens in a row. -/
theorem Segmented.gap (h : Segmented offset text s) (hs : s.tokens = us ++ t :: u :: r) :
    ∀ c ∈ (text.drop (t.span.stop - offset)).take (u.span.start - t.span.stop),
      isSpace c = true := by
  induction h generalizing us with
  | finish =>
    have hlength := congrArg List.length hs
    simp at hlength
    omega
  | @token offset blanks chars rest kind payload s _ _ _ hrest ih =>
    cases us with
    | nil =>
      obtain ⟨rfl, htail⟩ := List.cons.inj hs
      have hdrop : offset + blanks.length + chars.length - offset =
          blanks.length + (chars.length + 0) := by omega
      rw [Span.stop_ofLength, hdrop, List.drop_length_add_append, List.drop_length_add_append,
        List.drop_zero]
      exact hrest.lead htail
    | cons _ us =>
      obtain ⟨-, htail⟩ := List.cons.inj hs
      have hstart : offset + blanks.length + chars.length ≤ t.span.stop :=
        Nat.le_trans (hrest.cuts.start_le t (by rw [htail]; simp)) t.span.start_le
      have hdrop : t.span.stop - offset =
          blanks.length + (chars.length + (t.span.stop - (offset + blanks.length + chars.length))) := by
        omega
      rw [hdrop, List.drop_length_add_append, List.drop_length_add_append]
      exact ih htail
  | fault => exact absurd hs (by simp)

/-- **Under a token** stand the characters that it was read off, which spell it. -/
theorem slice_token (ht : t ∈ (ofText .standard text).tokens) (hkind : t.kind ≠ .endOfInput) :
    Spells (t.span.slice text) t.kind t.payload ∧ t.span.slice text = t.lexeme ∧
      t.span.length = t.lexeme.length := by
  obtain ⟨-, hspells, hlength, hslice⟩ := (ofText_cuts .standard text).segmented.spelled ht hkind
  rw [Nat.sub_zero] at hslice
  rw [Span.slice, hslice]
  exact ⟨hspells, rfl, hlength⟩

/-- **Between tokens** in a row there is only white space. -/
theorem slice_gap (hs : (ofText .standard text).tokens = us ++ t :: u :: r) {gap : Span}
    (hstart : gap.start = t.span.stop) (hstop : gap.stop = u.span.start) :
    ∀ c ∈ gap.slice text, isSpace c = true := by
  have hgap := (ofText_cuts .standard text).segmented.gap hs
  rwa [Nat.sub_zero, ← hstart, ← hstop] at hgap

/-- Between two tokens stand the tokens between them, with white space around those. -/
theorem slice_enclosed {before after ts : List Token} {opener closer : Token} {s : Span}
    (htokens : (ofText .standard text).tokens = before ++ (opener :: (ts ++ [closer]) ++ after))
    (hs : Covers ts s) (ho : opener.kind ≠ .endOfInput) (hc : closer.kind ≠ .endOfInput) :
    ∃ blanks blanks', (∀ c ∈ blanks, isSpace c = true) ∧ (∀ c ∈ blanks', isSpace c = true) ∧
      (opener.span.union closer.span).slice text =
        opener.lexeme ++ (blanks ++ (s.slice text ++ (blanks' ++ closer.lexeme))) := by
  have hlegible : Legible (opener :: (ts ++ [closer])) := legible_among htokens
  have hopen : opener.span.stop ≤ s.start := hs.stop_le_start (Legible.left [closer] hlegible)
  have hclose : s.stop ≤ closer.span.start := hs.stop_le_start_of_append hlegible.tail
  obtain ⟨first, last, hfirst, hlast, hstart, hstop⟩ := hs
  obtain ⟨rest, hrest⟩ := List.head?_eq_some_iff.1 hfirst
  obtain ⟨init, hinit⟩ := List.getLast?_eq_some_iff.1 hlast
  have hgap : ∀ c ∈ (Span.mk opener.span.stop s.start hopen).slice text, isSpace c = true := by
    have hrow : (ofText .standard text).tokens =
        before ++ opener :: first :: (rest ++ ([closer] ++ after)) := by
      rw [htokens, hrest]
      simp
    exact slice_gap hrow rfl hstart
  have hgap' : ∀ c ∈ (Span.mk s.stop closer.span.start hclose).slice text, isSpace c = true := by
    have hrow : (ofText .standard text).tokens =
        (before ++ opener :: init) ++ last :: closer :: after := by
      rw [htokens, hinit]
      simp
    exact slice_gap hrow hstop rfl
  have hslice : ∀ t ∈ (ofText .standard text).tokens, t.kind ≠ .endOfInput →
      t.span.slice text = t.lexeme := fun t ht hk => (slice_token ht hk).2.1
  refine ⟨_, _, hgap, hgap', ?_⟩
  rw [← hslice opener (by rw [htokens]; simp) ho, ← hslice closer (by rw [htokens]; simp) hc]
  have h₁ := opener.span.start_le
  have h₂ := s.start_le
  have h₃ := closer.span.start_le
  have hstop : opener.span.stop ≤ closer.span.stop := by omega
  have hwhole : opener.span.union closer.span =
      ⟨opener.span.start, closer.span.stop, Nat.le_trans h₁ hstop⟩ := by
    ext
    · rw [Span.start_union]
      dsimp only
      omega
    · rw [Span.stop_union]
      dsimp only
      omega
  have split : ∀ {i j : Nat} (hij : i ≤ j) (hj : j ≤ closer.span.stop),
      (Span.mk i closer.span.stop (Nat.le_trans hij hj)).slice text =
        (Span.mk i j hij).slice text ++ (Span.mk j closer.span.stop hj).slice text :=
    fun hij hj => Span.slice_split ⟨_, closer.span.stop, Nat.le_trans hij hj⟩ hij hj text
  have hclosed : s.stop ≤ closer.span.stop := Nat.le_trans hclose h₃
  rw [hwhole, split h₁ hstop, split hopen (Nat.le_trans h₂ hclosed), split h₂ hclosed,
    split hclose h₃]

end Stream

end Curly
