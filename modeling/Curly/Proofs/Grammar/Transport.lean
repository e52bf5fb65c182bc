import Curly.Proofs.Grammar.Basic
import Curly.Proofs.Tree.Similar

/-!
# The grammar and the places of tokens

A derivation depends on the kinds of the tokens and on what they say, but not on where they stand. If
one token sequence is replaced by another that says the same, the tree changes in its spans only.

## Main definitions

* `Token.Similar`: tokens that say the same, with spans in a given relation.
* `Joins`: a relation of spans that unions respect.

## Main statements

* `Phrase.Derives.transport`, `TextUnit.Derives.transport`: derivations from similar tokens.
-/

namespace Curly

/-- The tokens say the same, and their spans are related by `ρ`. -/
structure Token.Similar (ρ : Span → Span → Prop) (t t' : Token) : Prop where
  kind : t.kind = t'.kind
  payload : t.payload = t'.payload
  span : ρ t.span t'.span

/-- The relation of spans is respected by unions. -/
def Joins (ρ : Span → Span → Prop) : Prop :=
  ∀ s s' t t', ρ s s' → ρ t t' → ρ (s.union t) (s'.union t')

variable {ρ : Span → Span → Prop} {ts ts' : List Token} {T : Tree}

namespace Token.Similar

variable {t t' : Token}

theorem isName (h : t.Similar ρ t') {s : String} (ht : t.IsName s) : t'.IsName s :=
  ⟨h.kind ▸ ht.1, h.payload ▸ ht.2⟩

theorem kind_eq (h : t.Similar ρ t') {k : TokenKind} (ht : t.kind = k) : t'.kind = k :=
  h.kind ▸ ht

theorem literal? (h : t.Similar ρ t') : Phrase.literal? t' = Phrase.literal? t := by
  rw [Phrase.literal?, Phrase.literal?, h.kind, h.payload]

end Token.Similar

/-- What is related to a concatenation is a concatenation. -/
theorem forall₂_append_cases {α β : Type} {R : α → β → Prop} {l₁ l₂ : List α} {l : List β}
    (h : List.Forall₂ R (l₁ ++ l₂) l) :
    ∃ l₁' l₂', l = l₁' ++ l₂' ∧ List.Forall₂ R l₁ l₁' ∧ List.Forall₂ R l₂ l₂' := by
  induction l₁ generalizing l with
  | nil => exact ⟨[], l, rfl, .nil, h⟩
  | cons a l₁ ih =>
    cases h with
    | cons hab h =>
      obtain ⟨l₁', l₂', rfl, h₁, h₂⟩ := ih h
      exact ⟨_ :: l₁', l₂', rfl, .cons hab h₁, h₂⟩

theorem exists_of_forall₂_mem {α β : Type} {R : α → β → Prop} {l : List α} {l' : List β}
    (h : List.Forall₂ R l l') {b : β} (hb : b ∈ l') : ∃ a ∈ l, R a b := by
  induction h with
  | nil => cases hb
  | cons hab _ ih =>
    rcases List.mem_cons.1 hb with rfl | hb
    · exact ⟨_, List.mem_cons_self .., hab⟩
    · obtain ⟨a, ha, h⟩ := ih hb
      exact ⟨a, List.mem_cons_of_mem _ ha, h⟩

theorem EndsOfLine.transport (h : EndsOfLine ts) (hts : List.Forall₂ (Token.Similar ρ) ts ts') :
    EndsOfLine ts' := by
  induction hts with
  | nil => exact h
  | cons ht _ ih =>
    intro u hu
    rcases List.mem_cons.1 hu with rfl | hu
    · exact ht.kind_eq (h _ (List.mem_cons_self ..))
    · exact ih (fun t ht => h t (List.mem_cons_of_mem _ ht)) u hu

/-- A part may be replaced by a similar one. -/
def Transports (ρ : Span → Span → Prop) (D : List Token → Tree → Prop) (p : Part) : Prop :=
  ∀ us, List.Forall₂ (Token.Similar ρ) p.1 us → ∃ U, D us U ∧ Tree.Similar ρ p.2 U

section

variable {D : List Token → Tree → Prop} {parts : List Part}

theorem Listing.transport {es : List Tree} {t : Option Tree} (h : Listing ts parts es t)
    (hparts : ∀ p ∈ parts, Transports ρ D p) (hts : List.Forall₂ (Token.Similar ρ) ts ts') :
    ∃ parts' es' t', Listing ts' parts' es' t' ∧ (∀ p ∈ parts', D p.1 p.2) ∧
      List.Forall₂ (Tree.Similar ρ) es es' ∧ Tree.SimilarTails ρ t t' ∧
      List.Forall₂ (Tree.Similar ρ) (parts.map Prod.snd) (parts'.map Prod.snd) := by
  induction h generalizing ts' with
  | nil =>
    cases hts
    exact ⟨[], [], none, .nil, by simp, .nil, .none, .nil⟩
  | tail =>
    obtain ⟨U, hU, hsimilar⟩ := hparts _ (List.mem_singleton_self _) ts' hts
    exact ⟨[(ts', U)], [], some U, .tail, by simpa using hU, .nil, .some hsimilar,
      .cons hsimilar .nil⟩
  | @statement us T ends rest parts es t hne hends _ ih =>
    obtain ⟨us', l, rfl, hus, hl⟩ := forall₂_append_cases hts
    obtain ⟨ends', rest', rfl, hends', hrest⟩ := forall₂_append_cases hl
    obtain ⟨U, hU, hsimilar⟩ := hparts _ (List.mem_cons_self ..) us' hus
    obtain ⟨parts', es', t', h, hD, hes, ht, hall⟩ :=
      ih (fun p hp => hparts p (List.mem_cons_of_mem _ hp)) hrest
    have hne' : ends' ≠ [] := by
      rintro rfl
      exact hne (List.forall₂_nil_right_iff.1 hends')
    exact ⟨(us', U) :: parts', U :: es', t', .statement hne' (hends.transport hends') h,
      List.forall_mem_cons.2 ⟨hU, hD⟩, .cons hsimilar hes, ht, .cons hsimilar hall⟩

theorem Arguments.transport (h : Arguments ts parts) (hparts : ∀ p ∈ parts, Transports ρ D p)
    (hts : List.Forall₂ (Token.Similar ρ) ts ts') :
    ∃ parts', Arguments ts' parts' ∧ (∀ p ∈ parts', D p.1 p.2) ∧
      List.Forall₂ (Tree.Similar ρ) (parts.map Prod.snd) (parts'.map Prod.snd) := by
  induction h generalizing ts' with
  | nil =>
    cases hts
    exact ⟨[], .nil, by simp, .nil⟩
  | last =>
    obtain ⟨U, hU, hsimilar⟩ := hparts _ (List.mem_singleton_self _) ts' hts
    exact ⟨[(ts', U)], .last, by simpa using hU, .cons hsimilar .nil⟩
  | @cons us T comma rest part parts hcomma _ ih =>
    obtain ⟨us', l, rfl, hus, hl⟩ := forall₂_append_cases hts
    obtain ⟨U, hU, hsimilar⟩ := hparts _ (List.mem_cons_self ..) us' hus
    cases hl with
    | cons hcomma' hrest =>
      obtain ⟨parts', h, hD, hall⟩ :=
        ih (fun p hp => hparts p (List.mem_cons_of_mem _ hp)) hrest
      cases parts' with
      | nil => exact absurd hall.length_eq (by simp)
      | cons part' parts' =>
        exact ⟨(us', U) :: part' :: parts', .cons (hcomma'.kind_eq hcomma) h,
          List.forall_mem_cons.2 ⟨hU, hD⟩, .cons hsimilar hall⟩

end

/-- **Transport**: a phrase is derived from similar tokens with a similar tree. -/
theorem Phrase.Derives.transport {d : Nat} {x : Phrase} (h : Derives d x ts T) (hρ : Joins ρ)
    (hts : List.Forall₂ (Token.Similar ρ) ts ts') :
    ∃ T', Derives d x ts' T' ∧ Tree.Similar ρ T T' := by
  -- In each case the tokens fall apart like those of the rule, and the same rule joins them again.
  induction h generalizing ts' with
  | declaration ho hn he _ ih =>
    obtain _ | ⟨hopener, _ | ⟨hname, _ | ⟨hequal, hv⟩⟩⟩ := hts
    obtain ⟨V, hV, hsimilar⟩ := ih hv
    exact ⟨_, .declaration (hopener.kind_eq ho) (hname.isName hn) (hequal.kind_eq he) hV,
      .declaration (hρ _ _ _ _ hopener.span hsimilar.span) hsimilar⟩
  | bareDeclaration ho hn =>
    obtain _ | ⟨hopener, _ | ⟨hname, _ | _⟩⟩ := hts
    exact ⟨_, .bareDeclaration (hopener.kind_eq ho) (hname.isName hn),
      .declaration (hρ _ _ _ _ hopener.span hname.span) (.literal hname.span)⟩
  | evaluation _ ih =>
    obtain ⟨U, hU, hsimilar⟩ := ih hts
    exact ⟨U, .evaluation hU, hsimilar⟩
  | assignment hn he _ ih =>
    obtain _ | ⟨hname, _ | ⟨hequal, hv⟩⟩ := hts
    obtain ⟨V, hV, hsimilar⟩ := ih hv
    exact ⟨_, .assignment (hname.isName hn) (hequal.kind_eq he) hV,
      .assignment (hρ _ _ _ _ hname.span hsimilar.span) hsimilar⟩
  | operation _ ih =>
    obtain ⟨U, hU, hsimilar⟩ := ih hts
    exact ⟨U, .operation hU, hsimilar⟩
  | tighter _ ih =>
    obtain ⟨U, hU, hsimilar⟩ := ih hts
    exact ⟨U, .tighter hU, hsimilar⟩
  | binary _ ho _ iha ihb =>
    obtain ⟨a', l, rfl, ha, hl⟩ := forall₂_append_cases hts
    obtain _ | ⟨hop, hb⟩ := hl
    obtain ⟨A, hA, hsimilar⟩ := iha ha
    obtain ⟨B, hB, hsimilar'⟩ := ihb hb
    exact ⟨_, .binary hA (hop.kind ▸ ho) hB,
      .binary (hρ _ _ _ _ hsimilar.span hsimilar'.span) hsimilar hsimilar'⟩
  | unary ho _ ih =>
    obtain _ | ⟨hop, ha⟩ := hts
    obtain ⟨A, hA, hsimilar⟩ := ih ha
    exact ⟨_, .unary (hop.kind ▸ ho) hA, .unary (hρ _ _ _ _ hop.span hsimilar.span) hsimilar⟩
  | unsigned _ ih =>
    obtain ⟨U, hU, hsimilar⟩ := ih hts
    exact ⟨U, .unsigned hU, hsimilar⟩
  | uncalled _ ih =>
    obtain ⟨U, hU, hsimilar⟩ := ih hts
    exact ⟨U, .uncalled hU, hsimilar⟩
  | call _ ho hargs _ hc ihf ihparts =>
    obtain ⟨f', l, rfl, hf, hl⟩ := forall₂_append_cases hts
    obtain _ | ⟨hopener, hl⟩ := hl
    obtain ⟨us, l, rfl, hus, hl⟩ := forall₂_append_cases hl
    obtain _ | ⟨hcloser, _ | _⟩ := hl
    obtain ⟨F, hF, hsimilar⟩ := ihf hf
    obtain ⟨parts', hargs', hparts', hall⟩ := hargs.transport (fun p hp us hus => ihparts p hp hus) hus
    exact ⟨_, .call hF (hopener.kind_eq ho) hargs' hparts' (hcloser.kind_eq hc),
      .of_arguments (hρ _ _ _ _ hsimilar.span hcloser.span) hsimilar hall⟩
  | literal h =>
    obtain _ | ⟨ht, _ | _⟩ := hts
    exact ⟨_, .literal (ht.literal?.trans h), .literal ht.span⟩
  | reference h =>
    obtain _ | ⟨ht, _ | _⟩ := hts
    exact ⟨_, .reference (ht.isName h), .reference ht.span⟩
  | doBlock hw _ ih =>
    obtain _ | ⟨hword, hb⟩ := hts
    obtain ⟨B, hB, hsimilar⟩ := ih hb
    exact ⟨_, .doBlock (hword.kind_eq hw) hB,
      .doBlock (hρ _ _ _ _ hword.span hsimilar.span) hsimilar⟩
  | loop hw _ ih =>
    obtain _ | ⟨hword, hb⟩ := hts
    obtain ⟨B, hB, hsimilar⟩ := ih hb
    exact ⟨_, .loop (hword.kind_eq hw) hB, .loop (hρ _ _ _ _ hword.span hsimilar.span) hsimilar⟩
  | parenthesized ho _ hc ih =>
    obtain _ | ⟨hopener, hl⟩ := hts
    obtain ⟨us, l, rfl, hus, hl⟩ := forall₂_append_cases hl
    obtain _ | ⟨hcloser, _ | _⟩ := hl
    obtain ⟨U, hU, hsimilar⟩ := ih hus
    exact ⟨_, .parenthesized (hopener.kind_eq ho) hU (hcloser.kind_eq hc),
      hsimilar.withSpan (hρ _ _ _ _ hopener.span hcloser.span)⟩
  | block ho hends hlisting _ hc ih =>
    obtain _ | ⟨hopener, hl⟩ := hts
    obtain ⟨ends', l, rfl, hends', hl⟩ := forall₂_append_cases hl
    obtain ⟨us, l, rfl, hus, hl⟩ := forall₂_append_cases hl
    obtain _ | ⟨hcloser, _ | _⟩ := hl
    obtain ⟨parts', es', t', hlisting', hparts', hes, ht, _⟩ :=
      hlisting.transport (fun p hp us hus => ih p hp hus) hus
    exact ⟨_, .block (hopener.kind_eq ho) (hends.transport hends') hlisting' hparts'
      (hcloser.kind_eq hc), .of_statements (hρ _ _ _ _ hopener.span hcloser.span) hes ht⟩

theorem Listing.transport_statements {d : Nat} {parts : List Part} {es : List Tree}
    {t : Option Tree} (h : Listing ts parts es t) (hρ : Joins ρ)
    (hparts : ∀ p ∈ parts, Phrase.Derives d .statement p.1 p.2)
    (hts : List.Forall₂ (Token.Similar ρ) ts ts') :
    ∃ parts' es' t', Listing ts' parts' es' t' ∧
      (∀ p ∈ parts', Phrase.Derives d .statement p.1 p.2) ∧
      List.Forall₂ (Tree.Similar ρ) es es' ∧ Tree.SimilarTails ρ t t' ∧
      List.Forall₂ (Tree.Similar ρ) (parts.map Prod.snd) (parts'.map Prod.snd) :=
  h.transport (fun p hp _ hus => (hparts p hp).transport hρ hus) hts

theorem Tree.SimilarTails.toList {t t' : Option Tree} (h : SimilarTails ρ t t') :
    List.Forall₂ (Similar ρ) t.toList t'.toList := by
  cases h with
  | none => exact .nil
  | some h => exact .cons h .nil

namespace TextUnit

/-- The spans of whole texts are related like those of their statements, where there are any. -/
theorem cover_similar {es es' : List Tree} (hρ : Joins ρ) (hne : ρ .origin .origin)
    (h : List.Forall₂ (Tree.Similar ρ) es es') : ρ (cover es) (cover es') := by
  have last : ∀ {es es' : List Tree}, List.Forall₂ (Tree.Similar ρ) es es' →
      (es.getLast? = none ∧ es'.getLast? = none) ∨
        ∃ a a', es.getLast? = some a ∧ es'.getLast? = some a' ∧ Tree.Similar ρ a a' := by
    intro es es' h
    induction h with
    | nil => exact .inl ⟨rfl, rfl⟩
    | cons ha h ih =>
      rcases ih with ⟨hl, hl'⟩ | ⟨b, b', hl, hl', hb⟩
      · cases List.getLast?_eq_none_iff.1 hl
        cases List.getLast?_eq_none_iff.1 hl'
        exact .inr ⟨_, _, rfl, rfl, ha⟩
      · refine .inr ⟨b, b', ?_, ?_, hb⟩
        · rw [List.getLast?_cons, hl, Option.getD_some]
        · rw [List.getLast?_cons, hl', Option.getD_some]
  cases h with
  | nil => exact hne
  | cons ha h =>
    rcases last (.cons ha h) with ⟨hl, _⟩ | ⟨b, b', hl, hl', hb⟩
    · exact absurd (List.getLast?_eq_none_iff.1 hl) (by simp)
    · rw [cover, cover, hl, hl']
      exact hρ _ _ _ _ ha.span hb.span

/-- A list of statements is a block as wide as its statements. -/
theorem Derives.exists_block {d : Nat} {u : TextUnit} (h : Derives d u ts T) (hu : u ≠ .single) :
    ∃ es t, T = .block (cover (es ++ t.toList)) es t := by
  cases h with
  | program => exact ⟨_, none, by rw [Option.toList_none, List.append_nil]⟩
  | single => exact absurd rfl hu
  | statements => exact ⟨_, _, rfl⟩

/-- The statements of a whole text may be replaced by similar ones, whatever becomes of the text as a
whole. -/
theorem Derives.transport_statements {d : Nat} {u : TextUnit} {s : Span} {es : List Tree}
    {t : Option Tree} (h : Derives d u ts (.block s es t)) (hu : u ≠ .single) (hρ : Joins ρ)
    (hts : List.Forall₂ (Token.Similar ρ) ts ts') :
    ∃ s' es' t', Derives d u ts' (.block s' es' t') ∧ List.Forall₂ (Tree.Similar ρ) es es' ∧
      Tree.SimilarTails ρ t t' := by
  cases h with
  | @program ends ts parts es t eof hends hlisting hparts hdecl heof =>
    obtain ⟨ends', l, rfl, hends', hl⟩ := forall₂_append_cases hts
    obtain ⟨us, l, rfl, hus, hl⟩ := forall₂_append_cases hl
    obtain _ | ⟨heof', _ | _⟩ := hl
    obtain ⟨parts', es', t', hlisting', hparts', hes, ht, hall⟩ :=
      hlisting.transport_statements hρ hparts hus
    have hdecl' : ∀ p ∈ parts', ∃ s n e, p.2 = .declaration s n e := by
      intro p hp
      obtain ⟨_, hmem, hsimilar⟩ := exists_of_forall₂_mem hall (List.mem_map_of_mem hp)
      obtain ⟨q, hq, rfl⟩ := List.mem_map.1 hmem
      obtain ⟨s, n, e, he⟩ := hdecl q hq
      rw [he] at hsimilar
      generalize p.2 = U at hsimilar ⊢
      cases hsimilar
      exact ⟨_, _, _, rfl⟩
    exact ⟨_, _, none, .program (hends.transport hends') hlisting' hparts' hdecl'
      (heof'.kind_eq heof), List.rel_append hes ht.toList, .none⟩
  | single => exact absurd rfl hu
  | @statements ends ts parts es t eof hends hlisting hparts heof =>
    obtain ⟨ends', l, rfl, hends', hl⟩ := forall₂_append_cases hts
    obtain ⟨us, l, rfl, hus, hl⟩ := forall₂_append_cases hl
    obtain _ | ⟨heof', _ | _⟩ := hl
    obtain ⟨parts', es', t', hlisting', hparts', hes, ht, _⟩ :=
      hlisting.transport_statements hρ hparts hus
    exact ⟨_, _, _, .statements (hends.transport hends') hlisting' hparts' (heof'.kind_eq heof),
      hes, ht⟩

/-- **Transport**: a whole text is derived from similar tokens with a similar tree. -/
theorem Derives.transport {d : Nat} {u : TextUnit} (h : Derives d u ts T) (hρ : Joins ρ)
    (hne : ρ .origin .origin) (hts : List.Forall₂ (Token.Similar ρ) ts ts') :
    ∃ T', Derives d u ts' T' ∧ Tree.Similar ρ T T' := by
  by_cases hu : u = .single
  · subst hu
    cases h with
    | @single before ts T after eof hbefore h hafter heof =>
      obtain ⟨before', l, rfl, hbefore', hl⟩ := forall₂_append_cases hts
      obtain ⟨us, l, rfl, hus, hl⟩ := forall₂_append_cases hl
      obtain ⟨after', l, rfl, hafter', hl⟩ := forall₂_append_cases hl
      obtain _ | ⟨heof', _ | _⟩ := hl
      obtain ⟨U, hU, hsimilar⟩ := h.transport hρ hus
      exact ⟨U, .single (hbefore.transport hbefore') hU (hafter.transport hafter')
        (heof'.kind_eq heof), hsimilar⟩
  · obtain ⟨es, t, rfl⟩ := h.exists_block hu
    obtain ⟨s', es', t', h', hes, ht⟩ := h.transport_statements hu hρ hts
    obtain ⟨_, _, hblock⟩ := h'.exists_block hu
    cases hblock
    exact ⟨_, h', .of_statements (cover_similar hρ hne (List.rel_append hes ht.toList)) hes ht⟩

end TextUnit

end Curly
