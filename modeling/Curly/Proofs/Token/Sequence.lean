import Curly.Token.Basic

/-!
# Sequences of tokens

What the tokens of a text have in common, whatever the text is.

## Main definitions

* `Token.Fits`: a token says what its kind has to say.
* `Token.NameFits`: a name is as long as the text that it was read from.
* `Legible`: the tokens stand one after the other and fit their kinds.
* `Covers`: a span goes from the first of some tokens to the last.
-/

namespace Curly

/-- The token says what its kind has to say. A name is as long as the text that it was read from. -/
def Token.Fits (t : Token) : Prop :=
  match t.kind with
  | .identifier => ∃ s, t.payload = .name s ∧ t.span.length = s.length
  | .number => ∃ x, t.payload = .number x
  | .string => ∃ s, t.payload = .string s
  | _ => True

/-- If the token is a name, it is as long as the name. -/
def Token.NameFits (t : Token) : Prop :=
  ∀ s, t.kind = .identifier → t.payload = .name s → t.span.length = s.length

theorem Token.Fits.nameFits {t : Token} (h : t.Fits) : t.NameFits := by
  intro s hk hs
  simp only [Token.Fits, hk] at h
  obtain ⟨s', hs', hlength⟩ := h
  cases hs.symm.trans hs'
  exact hlength

/-- The tokens stand one after the other, and each says what its kind has to say. -/
structure Legible (ts : List Token) : Prop where
  /-- A token ends before the next one begins. -/
  ordered : ts.Pairwise fun t u => t.span.stop ≤ u.span.start
  /-- Every token fits its kind. -/
  fits : ∀ t ∈ ts, t.Fits
  /-- An opening parenthesis has a place of its own. -/
  openers : ∀ t ∈ ts, t.kind = .leftParen → 0 < t.span.length

namespace Legible

variable {t : Token} {ts : List Token}

theorem left (us : List Token) (h : Legible (ts ++ us)) : Legible ts where
  ordered := (List.pairwise_append.1 h.ordered).1
  fits := fun t ht => h.fits t (List.mem_append_left us ht)
  openers := fun t ht => h.openers t (List.mem_append_left us ht)

theorem right (ts : List Token) {us : List Token} (h : Legible (ts ++ us)) : Legible us where
  ordered := (List.pairwise_append.1 h.ordered).2.1
  fits := fun t ht => h.fits t (List.mem_append_right ts ht)
  openers := fun t ht => h.openers t (List.mem_append_right ts ht)

theorem tail (h : Legible (t :: ts)) : Legible ts := right [t] h

theorem among {us : List Token} (h : Legible ts) (hus : us <:+: ts) : Legible us := by
  obtain ⟨before, after, rfl⟩ := hus
  exact (h.left after).right before

/-- A name is as long as the text that it was read from. -/
theorem length_eq_of_name {s : String} (h : Legible ts) (ht : t ∈ ts) (hk : t.kind = .identifier)
    (hs : t.payload = .name s) : t.span.length = s.length :=
  (h.fits t ht).nameFits s hk hs

theorem nameFits (h : Legible ts) : ∀ t ∈ ts, t.NameFits := fun t ht => (h.fits t ht).nameFits

end Legible

/-- The span goes from the first of the tokens to the last. -/
def Covers (ts : List Token) (s : Span) : Prop :=
  ∃ first last, ts.head? = some first ∧ ts.getLast? = some last ∧
    s.start = first.span.start ∧ s.stop = last.span.stop

namespace Covers

variable {ts vs : List Token} {s t : Span}

theorem single (u : Token) : Covers [u] u.span := ⟨u, u, rfl, rfl, rfl, rfl⟩

/-- Tokens before those of a span end before it begins. -/
theorem stop_le_start {u : Token} (h : Covers ts s) (hu : Legible (u :: ts)) :
    u.span.stop ≤ s.start := by
  obtain ⟨first, _, hfirst, _, hstart, _⟩ := h
  rw [hstart]
  exact List.rel_of_pairwise_cons hu.ordered (List.mem_of_mem_head? hfirst)

/-- Tokens after those of a span begin after it ends. -/
theorem stop_le_start_of_append {u : Token} (h : Covers ts s) (hu : Legible (ts ++ [u])) :
    s.stop ≤ u.span.start := by
  obtain ⟨_, last, _, hlast, _, hstop⟩ := h
  rw [hstop]
  exact (List.pairwise_append.1 hu.ordered).2.2 last (List.mem_of_mem_getLast? hlast) u
    (List.mem_singleton_self u)

/-- The span of a sequence is the union of those of its first part and its last part. -/
theorem union (us : List Token) (hs : Covers ts s) (ht : Covers vs t) (h : Legible (ts ++ (us ++ vs))) :
    Covers (ts ++ (us ++ vs)) (s.union t) := by
  obtain ⟨first, last, hfirst, hlast, hstart, hstop⟩ := hs
  obtain ⟨first', last', hfirst', hlast', hstart', hstop'⟩ := ht
  have hle : last.span.stop ≤ first'.span.start :=
    (List.pairwise_append.1 h.ordered).2.2 last (List.mem_of_mem_getLast? hlast) first'
      (List.mem_append_right us (List.mem_of_mem_head? hfirst'))
  have h₁ := s.start_le
  have h₂ := t.start_le
  refine ⟨first, last', ?_, ?_, ?_, ?_⟩
  · rw [List.head?_append, hfirst, Option.some_or]
  · rw [List.getLast?_append, List.getLast?_append, hlast', Option.some_or, Option.some_or]
  · rw [Span.start_union, ← hstart]
    omega
  · rw [Span.stop_union, ← hstop']
    omega

end Covers

end Curly
