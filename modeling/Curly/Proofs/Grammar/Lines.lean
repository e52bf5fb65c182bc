import Curly.Proofs.Grammar.Exactness
import Curly.Proofs.Token.Seam

/-!
# Texts that are read line by line

Statements or declarations may be followed by more of them after an end of line. What was the tail in
front of it becomes a statement like the others.

## Main statements

* `TextUnit.Derives.join`: the derivation of two texts with an end of line between them.
* `Tree.read_lines`: two texts that are read are read as one.
-/

namespace Curly

section

variable {ts us before seps : List Token} {ps qs : List Part} {es fs : List Tree}
  {t t' : Option Tree}

/-- An end of line after the last statement makes a statement of it. -/
theorem Listing.separated (h : Listing ts ps es t) (hps : ps ≠ []) (hseps : EndsOfLine seps)
    (hne : seps ≠ []) : Listing (ts ++ seps) ps (es ++ t.toList) none := by
  induction h with
  | nil => exact absurd rfl hps
  | @tail ts T =>
    have h : Listing (ts ++ (seps ++ [])) [(ts, T)] [T] none := .statement hne hseps .nil
    rwa [List.append_nil] at h
  | @statement ts T ends rest parts es t hne' hends hrest ih =>
    rw [List.append_assoc, List.append_assoc]
    by_cases hparts : parts = []
    · subst hparts
      cases hrest
      -- The ends of line that were there already and the new ones are one separator.
      have hall : EndsOfLine (ends ++ seps) := by
        intro u hu
        rcases List.mem_append.1 hu with hu | hu
        · exact hends u hu
        · exact hseps u hu
      have h : Listing (ts ++ ((ends ++ seps) ++ [])) [(ts, T)] [T] none :=
        .statement (List.append_ne_nil_of_left_ne_nil hne' seps) hall .nil
      rwa [List.append_nil] at h
    · exact .statement hne' hends (ih hparts)

/-- Two listings with ends of line between them are a listing, perhaps behind ends of line. -/
theorem Listing.join (h : Listing ts ps es t) (h' : Listing us qs fs t') (hbefore : EndsOfLine before)
    (hseps : EndsOfLine seps) (hne : seps ≠ []) (rest : List Token) :
    ∃ ends vs, before ++ (ts ++ (seps ++ (us ++ rest))) = ends ++ (vs ++ rest) ∧ EndsOfLine ends ∧
      Listing vs (ps ++ qs) (es ++ t.toList ++ fs) t' := by
  -- If the first listing is empty, all ends of line stand before the second one.
  by_cases hps : ps = []
  · subst hps
    cases h
    refine ⟨before ++ seps, us, ?_, fun u hu => ?_, h'⟩
    · rw [List.nil_append, List.append_assoc]
    · exact (List.mem_append.1 hu).elim (hbefore u) (hseps u)
  · refine ⟨before, (ts ++ seps) ++ us, ?_, hbefore, (h.separated hps hseps hne).append h'⟩
    rw [List.append_assoc, List.append_assoc]

end

namespace TextUnit

variable {d : Nat} {u : TextUnit} {ts us : List Token} {eof sep : Token} {s s' : Span}
  {es fs : List Tree} {t t' : Option Tree}

theorem init_eq_of_append {before vs : List Token} {eof' : Token}
    (h : ts ++ [eof] = before ++ (vs ++ [eof'])) : ts = before ++ vs :=
  (List.append_inj' (h.trans (List.append_assoc ..).symm) rfl).1

/-- **Lines join**: texts with an end of line between them are a text with the statements of both. -/
theorem Derives.join (hu : u ≠ .single) (h : Derives d u (ts ++ [eof]) (.block s es t))
    (hsep : sep.kind = .endOfLine) (h' : Derives d u us (.block s' fs t')) :
    ∃ s'', Derives d u (ts ++ sep :: us) (.block s'' (es ++ t.toList ++ fs) t') := by
  have separator : ∀ {ends : List Token}, EndsOfLine ends → EndsOfLine (sep :: ends) :=
    fun hends => List.forall_mem_cons.2 ⟨hsep, hends⟩
  generalize hts : ts ++ [eof] = all at h
  cases h with
  | single => exact absurd rfl hu
  | @program before vs ps es t eof' hbefore hlisting hparts hdecl heof =>
    obtain rfl := init_eq_of_append hts
    cases h' with
    | @program ends ws qs fs t' eof'' hends hlisting' hparts' hdecl' heof' =>
      obtain ⟨ends', xs, htokens, hends', hjoined⟩ :=
        hlisting.join hlisting' hbefore (separator hends) (List.cons_ne_nil _ _) [eof'']
      -- In a program the last declaration of either part stands among the others already.
      have hentries : es ++ t.toList ++ Option.toList none ++ (fs ++ t'.toList) =
          es ++ t.toList ++ fs ++ t'.toList := by
        rw [Option.toList_none, List.append_nil, ← List.append_assoc (es ++ t.toList)]
      rw [List.cons_append] at htokens
      rw [List.append_assoc, htokens, hentries]
      exact ⟨_, .program hends' hjoined (List.forall_mem_append.2 ⟨hparts, hparts'⟩)
        (List.forall_mem_append.2 ⟨hdecl, hdecl'⟩) heof'⟩
  | @statements before vs ps es t eof' hbefore hlisting hparts heof =>
    obtain rfl := init_eq_of_append hts
    cases h' with
    | @statements ends ws qs fs t' eof'' hends hlisting' hparts' heof' =>
      obtain ⟨ends', xs, htokens, hends', hjoined⟩ :=
        hlisting.join hlisting' hbefore (separator hends) (List.cons_ne_nil _ _) [eof'']
      rw [List.cons_append] at htokens
      rw [List.append_assoc, htokens]
      exact ⟨_, .statements hends' hjoined (List.forall_mem_append.2 ⟨hparts, hparts'⟩) heof'⟩

end TextUnit

/-- The second span is the first one, `n` characters further on. -/
def Span.Shifted (n : Nat) (s s' : Span) : Prop := s' = s.shift n

theorem Span.shifted_joins (n : Nat) : Joins (Span.Shifted n) := by
  rintro s _ t _ rfl rfl
  exact (Span.shift_union s t n).symm

/-- The same from right to left. -/
theorem Span.unshifted_joins (n : Nat) : Joins fun s s' => Span.Shifted n s' s := by
  rintro _ s _ t rfl rfl
  exact (Span.shift_union s t n).symm

theorem Token.similar_shift (t : Token) (n : Nat) : t.Similar (Span.Shifted n) (t.shift n) :=
  ⟨rfl, rfl, rfl⟩

theorem Token.similar_map_shift (ts : List Token) (n : Nat) :
    List.Forall₂ (Token.Similar (Span.Shifted n)) ts (ts.map (·.shift n)) := by
  rw [List.forall₂_map_right_iff, List.forall₂_same]
  exact fun t _ => t.similar_shift n

theorem Token.similar_map_unshift (ts : List Token) (n : Nat) :
    List.Forall₂ (Token.Similar fun s s' => Span.Shifted n s' s) (ts.map (·.shift n)) ts := by
  rw [List.forall₂_map_left_iff, List.forall₂_same]
  exact fun t _ => ⟨rfl, rfl, rfl⟩

namespace Tree

variable {unit : TextUnit} {text more : List Char} {T U : Tree} {c c' : Cursor}

/-- **Lines are read one by one**: if two texts are read, then so is the text that has both as lines,
with the statements of both. -/
theorem read_lines (hunit : unit ≠ .single) (hread : read unit text = .ok T c)
    (hread' : read unit more = .ok U c') :
    ∃ s es t s' fs t' s'' fs' t'' c'', T = .block s es t ∧ U = .block s' fs t' ∧
      List.Forall₂ (Similar (Span.Shifted (text.length + 1))) fs fs' ∧
      SimilarTails (Span.Shifted (text.length + 1)) t' t'' ∧
      read unit (text ++ '\n' :: more) = .ok (.block s'' (es ++ t.toList ++ fs') t'') c'' := by
  obtain ⟨hending, hT⟩ := read_sound hread
  obtain ⟨-, hU⟩ := read_sound hread'
  obtain ⟨es, t, rfl⟩ := hT.exists_block hunit
  obtain ⟨fs, t', rfl⟩ := hU.exists_block hunit
  have hshift : List.Forall₂ (Token.Similar (Span.Shifted (text.length + 1)))
      (Stream.ofText .standard more).tokens
      ((Stream.ofText .standard more).shift (text.length + 1)).tokens := by
    rw [Stream.shift, List.forall₂_map_right_iff, List.forall₂_same]
    exact fun u _ => u.similar_shift _
  obtain ⟨s', fs', t'', hU', hes, ht⟩ :=
    hU.transport_statements hunit (Span.shifted_joins _) hshift
  obtain ⟨ts, eof, hts, -⟩ := (Stream.proper text).ends hending
  rw [hts] at hT
  -- The tokens of the whole text are those of its lines, the second ones that much further on.
  let sep : Token := ⟨.endOfLine, .ofLength text.length 1, .none, ['\n']⟩
  have htokens : (Stream.ofText .standard (text ++ '\n' :: more)).tokens =
      ts ++ sep :: ((Stream.ofText .standard more).shift (text.length + 1)).tokens := by
    rw [Stream.ofText_append (.inl rfl) hending, hts, List.dropLast_concat]
  have hsep : sep.kind = .endOfLine := rfl
  obtain ⟨s'', hjoined⟩ := hT.join hunit hsep hU'
  rw [← htokens] at hjoined
  obtain ⟨c'', hc⟩ := read_of_derives hjoined
  exact ⟨_, es, t, _, fs, t', s'', fs', t'', c'', rfl, rfl, hes, ht, hc⟩

end Tree

end Curly
