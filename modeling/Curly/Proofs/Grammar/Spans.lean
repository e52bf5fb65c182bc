import Curly.Proofs.Grammar.Harmless
import Curly.Proofs.Grammar.Units

/-!
# The spans of trees

The span of a node goes from the first to the last of the tokens that the node was read from. The spans of
the nodes below it lie within it, one after the other, with a token between neighbours.

## Main definitions

* `Span.Within`: a span lies within another one.
* `Tree.Apart`: a token stands between two trees.
* `Tree.ReadFrom`: the tokens that a node was read from.

## Main statements

* `Phrase.Derives.children_within`, `Phrase.Derives.children_apart`: what is below a derived tree.
* `TextUnit.Derives.root`: the block of a whole text.
* `Tree.read_spans`: the spans of a tree that was read.
-/

namespace Curly

/-- The span `s` lies within `t`. -/
def Span.Within (s t : Span) : Prop := t.start ≤ s.start ∧ s.stop ≤ t.stop

/-- One of the tokens stands behind the tree `v` and in front of the tree `w`. -/
def Tree.Apart (ts : List Token) (v w : Tree) : Prop :=
  ∃ t ∈ ts, v.span.stop ≤ t.span.start ∧ t.span.start < t.span.stop ∧ t.span.stop ≤ w.span.start

theorem Tree.Apart.mono {ts us : List Token} {v w : Tree} (h : Apart ts v w) (hts : ts ⊆ us) :
    Apart us v w := by
  obtain ⟨t, ht, hv, hlt, hw⟩ := h
  exact ⟨t, hts ht, hv, hlt, hw⟩

/-- Trees that are apart stand one after the other. -/
theorem Tree.Apart.stop_le {ts : List Token} {v w : Tree} (h : Apart ts v w) :
    v.span.stop ≤ w.span.start := by
  obtain ⟨t, -, hv, hlt, hw⟩ := h
  omega

/-- The tokens have characters. -/
def Solid (ts : List Token) : Prop := ∀ t ∈ ts, t.span.start < t.span.stop

namespace Covers

variable {ts us before after : List Token} {s s' : Span} {t : Token}

/-- The span of some tokens among others lies within the span of all. -/
theorem within (hs : Covers ts s) (hts : Legible ts) (ht : Covers us s') (hus : us ⊆ ts) :
    s'.Within s := by
  obtain ⟨first, last, hfirst, hlast, hstart, hstop⟩ := hs
  obtain ⟨first', last', hfirst', hlast', hstart', hstop'⟩ := ht
  have hmem : first' ∈ ts := hus (List.mem_of_mem_head? hfirst')
  have hmem' : last' ∈ ts := hus (List.mem_of_mem_getLast? hlast')
  obtain ⟨rest, rfl⟩ := List.head?_eq_some_iff.1 hfirst
  constructor
  · rw [hstart, hstart']
    rcases List.mem_cons.1 hmem with rfl | hmem
    · exact Nat.le_refl _
    · exact Nat.le_trans first.span.start_le (List.rel_of_pairwise_cons hts.ordered hmem)
  · rw [hstop, hstop']
    obtain ⟨init, hinit⟩ := List.getLast?_eq_some_iff.1 hlast
    rw [hinit] at hmem' hts
    rcases List.mem_append.1 hmem' with hmem' | hmem'
    · have hle := (List.pairwise_append.1 hts.ordered).2.2 last' hmem' last
        (List.mem_singleton_self last)
      exact Nat.le_trans hle last.span.start_le
    · exact Nat.le_of_eq (congrArg (fun t => t.span.stop) (List.mem_singleton.1 hmem'))

theorem token_within (hs : Covers ts s) (hts : Legible ts) (ht : t ∈ ts) : t.span.Within s :=
  hs.within hts (single t) (List.cons_subset.2 ⟨ht, List.nil_subset _⟩)

/-- A token between the tokens of two trees stands between the trees. -/
theorem apart {v w : Tree} {vs ws : List Token} (hv : Covers vs v.span) (hvs : vs ⊆ before)
    (hw : Covers ws w.span) (hws : ws ⊆ after) (hts : Legible (before ++ t :: after))
    (ht : t.span.start < t.span.stop) : v.Apart (before ++ t :: after) w := by
  obtain ⟨_, last, _, hlast, _, hstop⟩ := hv
  obtain ⟨first, _, hfirst, _, hstart, _⟩ := hw
  have hordered := List.pairwise_append.1 hts.ordered
  refine ⟨t, List.mem_append_right _ (List.mem_cons_self ..), ?_, ht, ?_⟩
  · rw [hstop]
    exact hordered.2.2 last (hvs (List.mem_of_mem_getLast? hlast)) t (List.mem_cons_self ..)
  · rw [hstart]
    exact List.rel_of_pairwise_cons hordered.2.1 (hws (List.mem_of_mem_head? hfirst))

end Covers

section

variable {ts : List Token} {parts : List Part} {es : List Tree} {t : Option Tree}

/-- The parts of a listing are apart. -/
theorem Listing.apart (h : Listing ts parts es t) (hparts : ∀ p ∈ parts, Covers p.1 p.2.span)
    (hts : Legible ts) (hsolid : Solid ts) : (parts.map Prod.snd).Pairwise (Tree.Apart ts) := by
  induction h with
  | nil => exact .nil
  | tail => exact List.pairwise_singleton ..
  | @statement us T ends rest parts es t hne _ hrest ih =>
    obtain ⟨sep, ends, rfl⟩ := List.exists_cons_of_ne_nil hne
    have hsub : rest ⊆ us ++ (sep :: ends ++ rest) :=
      ((List.suffix_append _ _).trans (List.suffix_append _ _)).subset
    have hsep : sep ∈ us ++ (sep :: ends ++ rest) := by simp
    have hcovers : ∀ p ∈ parts, Covers p.1 p.2.span := fun p hp =>
      hparts p (List.mem_cons_of_mem _ hp)
    refine List.pairwise_cons.2 ⟨fun v hv => ?_, ?_⟩
    · obtain ⟨p, hp, rfl⟩ := List.mem_map.1 hv
      have hp' : p.1 ⊆ ends ++ rest := fun u hu =>
        List.mem_append_right ends ((hrest.infix_of_mem hp).subset hu)
      exact (hparts _ (List.mem_cons_self ..)).apart (List.Subset.refl us) (hcovers p hp) hp' hts
        (hsolid sep hsep)
    · have hrest := ih hcovers ((hts.right us).right (sep :: ends)) fun u hu => hsolid u (hsub hu)
      exact hrest.imp fun h => h.mono hsub

/-- The arguments of a call are apart. -/
theorem Arguments.apart (h : Arguments ts parts) (hparts : ∀ p ∈ parts, Covers p.1 p.2.span)
    (hts : Legible ts) (hsolid : Solid ts) : (parts.map Prod.snd).Pairwise (Tree.Apart ts) := by
  induction h with
  | nil => exact .nil
  | last => exact List.pairwise_singleton ..
  | @cons us T comma rest part parts _ hrest ih =>
    have hsub : rest ⊆ us ++ comma :: rest :=
      ((List.suffix_cons _ _).trans (List.suffix_append _ _)).subset
    have hcovers : ∀ p ∈ part :: parts, Covers p.1 p.2.span := fun p hp =>
      hparts p (List.mem_cons_of_mem _ hp)
    refine List.pairwise_cons.2 ⟨fun v hv => ?_, ?_⟩
    · obtain ⟨p, hp, rfl⟩ := List.mem_map.1 hv
      exact (hparts _ (List.mem_cons_self ..)).apart (List.Subset.refl us) (hcovers p hp)
        (hrest.infix_of_mem hp).subset hts (hsolid comma (by simp))
    · have hrest := ih hcovers (hts.right us).tail fun u hu => hsolid u (hsub hu)
      exact hrest.imp fun h => h.mono hsub

end

/-- No token says null. -/
theorem Phrase.ne_null_of_literal {t : Token} {v : Value} (h : literal? t = some v) :
    v ≠ .null := by
  rintro rfl
  simp only [literal?] at h
  split at h <;> cases h

namespace Phrase.Derives

variable {d : Nat} {x : Phrase} {ts : List Token} {T : Tree}

/-- What is below a derived tree stands in a row, with a token between neighbours. -/
theorem children_apart (h : Derives d x ts T) (hts : Legible ts) (hsolid : Solid ts) :
    T.children.Pairwise (Tree.Apart ts) := by
  induction h with
  | evaluation _ ih => exact ih hts hsolid
  | operation _ ih => exact ih hts hsolid
  | tighter _ ih => exact ih hts hsolid
  | unsigned _ ih => exact ih hts hsolid
  | uncalled _ ih => exact ih hts hsolid
  | literal => exact .nil
  | reference => exact .nil
  | @binary d l op o a A b B ha _ hb =>
    refine List.pairwise_cons.2 ⟨fun v hv => ?_, List.pairwise_singleton ..⟩
    obtain rfl := List.mem_singleton.1 hv
    exact (ha.covers (hts.left _)).apart (List.Subset.refl a) (hb.covers (hts.right a).tail)
      (List.Subset.refl b) hts (hsolid op (by simp))
  | @call d f F opener ts parts closer hf _ hargs hparts _ =>
    have hts' : Legible ts := ((hts.right f).tail).left [closer]
    have hsub : ts ⊆ f ++ opener :: (ts ++ [closer]) := fun u hu => by simp [hu]
    have hcovers : ∀ p ∈ parts, Covers p.1 p.2.span := fun p hp =>
      (hparts p hp).covers (hts'.among (hargs.infix_of_mem hp))
    refine List.pairwise_cons.2 ⟨fun v hv => ?_, ?_⟩
    · obtain ⟨p, hp, rfl⟩ := List.mem_map.1 hv
      have hp' : p.1 ⊆ ts ++ [closer] := fun u hu =>
        List.mem_append_left _ ((hargs.infix_of_mem hp).subset hu)
      exact (hf.covers (hts.left _)).apart (List.Subset.refl f) (hcovers p hp) hp' hts
        (hsolid opener (by simp))
    · exact (hargs.apart hcovers hts' fun u hu => hsolid u (hsub hu)).imp fun h => h.mono hsub
  | @parenthesized d opener ts T closer _ _ _ ih =>
    have hsub : ts ⊆ opener :: (ts ++ [closer]) := fun u hu => by simp [hu]
    rw [Tree.children_withSpan]
    exact (ih (hts.tail.left [closer]) fun u hu => hsolid u (hsub hu)).imp fun h => h.mono hsub
  | @block d opener ends ts parts es t closer _ _ hlisting hparts _ _ =>
    have hts' : Legible ts := (hts.tail.right ends).left [closer]
    have hsub : ts ⊆ opener :: (ends ++ (ts ++ [closer])) := fun u hu => by simp [hu]
    have hcovers : ∀ p ∈ parts, Covers p.1 p.2.span := fun p hp =>
      (hparts p hp).covers (hts'.among (hlisting.infix_of_mem hp))
    rw [Tree.children, ← hlisting.map_snd]
    exact (hlisting.apart hcovers hts' fun u hu => hsolid u (hsub hu)).imp fun h => h.mono hsub
  | _ => exact List.pairwise_singleton ..

/-- A declaration whose initializer is null has none in the text. -/
theorem eq_of_null {s s' : Span} {n : String}
    (h : Derives d x ts (.declaration s n (.literal s' .null))) :
    ∃ opener name, ts = [opener, name] ∧ opener.kind = .varWord ∧ name.IsName n ∧
      s' = name.span := by
  obtain ⟨rfl, -⟩ := h.begins_of_declaration rfl
  cases h with
  | declaration _ _ _ hv =>
    obtain ⟨t, -, ht⟩ := hv.exists_literal rfl
    exact absurd rfl (Phrase.ne_null_of_literal ht)
  | bareDeclaration ho hn => exact ⟨_, _, rfl, ho, hn, rfl⟩
  | evaluation h => cases (h.begins_of_declaration rfl).1

/-- What is below a derived tree lies within it. -/
theorem children_within (h : Derives d x ts T) (hts : Legible ts) {v : Tree} (hv : v ∈ T.children) :
    v.span.Within T.span := by
  rcases h.written_child hv with ⟨_, us, _, hus, _, hderives⟩ | ⟨s, n, s', rfl, rfl⟩
  · exact (h.covers hts).within hts (hderives.covers (hts.among hus)) hus.subset
  · obtain ⟨opener, name, rfl, -, -, rfl⟩ := h.eq_of_null
    exact (h.covers hts).token_within hts (by simp)

/-- A statement does not begin with an end of line. -/
theorem head_ne (h : Derives d .statement ts T) : ∀ t ∈ ts.head?, t.kind ≠ .endOfLine := by
  obtain ⟨t, rest, rfl, hbegins⟩ := h.begins
  rintro _ ⟨⟩ hk
  rw [hk] at hbegins
  cases hbegins

/-- A phrase does not end with an end of line. -/
theorem getLast_ne (h : Derives d x ts T) : ∀ t ∈ ts.getLast?, t.kind ≠ .endOfLine := by
  have behind : ∀ {us vs : List Token}, vs ≠ [] → (∀ t ∈ vs.getLast?, t.kind ≠ .endOfLine) →
      ∀ t ∈ (us ++ vs).getLast?, t.kind ≠ .endOfLine := by
    intro us vs hne hvs t ht
    rw [List.getLast?_append_of_ne_nil _ hne] at ht
    exact hvs t ht
  have last : ∀ {u : Token}, u.kind ≠ .endOfLine → ∀ t ∈ [u].getLast?, t.kind ≠ .endOfLine := by
    rintro u hu t ⟨⟩
    exact hu
  have nonempty : ∀ {d : Nat} {x : Phrase} {us : List Token} {T : Tree}, Derives d x us T →
      us ≠ [] := by
    intro d x us T h
    obtain ⟨t, rest, rfl, -⟩ := h.begins
    exact List.cons_ne_nil _ _
  induction h with
  | @declaration d opener name equal s v V _ _ _ hv ih =>
    exact @behind [opener, name, equal] v (nonempty hv) ih
  | @bareDeclaration d opener name _ _ hn =>
    exact @behind [opener] [name] (List.cons_ne_nil _ _) (last (by rw [hn.1]; decide))
  | evaluation _ ih => exact ih
  | @assignment d name equal s v V _ _ hv ih => exact @behind [name, equal] v (nonempty hv) ih
  | operation _ ih => exact ih
  | tighter _ ih => exact ih
  | @binary d l op o a A b B _ _ hb _ ih =>
    exact behind (List.cons_ne_nil _ _) (@behind [op] b (nonempty hb) ih)
  | @unary d op o a A _ ha ih => exact @behind [op] a (nonempty ha) ih
  | unsigned _ ih => exact ih
  | uncalled _ ih => exact ih
  | @call d f F opener ts parts closer _ _ _ _ hc =>
    have hcloser : closer.kind ≠ .endOfLine := by
      rw [hc]
      decide
    exact behind (List.cons_ne_nil _ _) (@behind (opener :: ts) [closer] (List.cons_ne_nil _ _)
      (last hcloser))
  | literal h =>
    refine last fun hk => ?_
    have := startsPrimary_of_literal h
    rw [hk] at this
    cases this
  | reference h => exact last (by rw [h.1]; decide)
  | @doBlock d word b B _ hb ih => exact @behind [word] b (nonempty hb) ih
  | @loop d word b B _ hb ih => exact @behind [word] b (nonempty hb) ih
  | @parenthesized d opener ts T closer _ _ hc =>
    exact @behind (opener :: ts) [closer] (List.cons_ne_nil _ _) (last (by rw [hc]; decide))
  | @block d opener ends ts parts es t closer _ _ _ _ hc =>
    have h := @behind (opener :: (ends ++ ts)) [closer] (List.cons_ne_nil _ _)
      (last (by rw [hc]; decide))
    rwa [List.cons_append, List.append_assoc] at h

end Phrase.Derives

/-- A listing goes from the first token of its first part to the last token of its last part, with ends
of line behind it. -/
theorem Listing.trim {ts : List Token} {parts : List Part} {es : List Tree} {t : Option Tree}
    (h : Listing ts parts es t) {first last : Part} (hfirst : parts.head? = some first)
    (hlast : parts.getLast? = some last) (hparts : ∀ p ∈ parts, p.1 ≠ []) :
    ∃ vs after, ts = vs ++ after ∧ EndsOfLine after ∧ vs.head? = first.1.head? ∧
      vs.getLast? = last.1.getLast? := by
  induction h generalizing first with
  | nil => cases hfirst
  | @tail ts T =>
    cases hfirst
    cases hlast
    exact ⟨ts, [], (List.append_nil ts).symm, .nil, rfl, rfl⟩
  | @statement us T ends rest parts es t _ hends hrest ih =>
    cases hfirst
    have hus : us ≠ [] := hparts _ (List.mem_cons_self ..)
    cases parts with
    | nil =>
      cases hlast
      cases hrest
      exact ⟨us, ends, by rw [List.append_nil], hends, rfl, rfl⟩
    | cons part parts =>
      rw [List.getLast?_cons_cons] at hlast
      obtain ⟨vs, after, rfl, hafter, -, hvs⟩ := ih rfl hlast fun p hp =>
        hparts p (List.mem_cons_of_mem _ hp)
      have hne : vs ≠ [] := by
        rintro rfl
        have hlast' : last.1 ≠ [] := hparts last
          (List.mem_cons_of_mem _ (List.mem_of_mem_getLast? hlast))
        exact hlast' (List.getLast?_eq_none_iff.1 hvs.symm)
      refine ⟨us ++ (ends ++ vs), after, ?_, hafter, ?_, ?_⟩
      · rw [List.append_assoc, List.append_assoc]
      · exact List.head?_append_of_ne_nil _ hus
      · rw [List.getLast?_append_of_ne_nil _ (List.append_ne_nil_of_right_ne_nil _ hne),
          List.getLast?_append_of_ne_nil _ hne, hvs]

/-- The span from the first to the last of some trees in a row. -/
theorem TextUnit.cover_eq {es : List Tree} {v w : Tree} (hv : es.head? = some v)
    (hw : es.getLast? = some w) (h : es.Pairwise fun v w => v.span.stop ≤ w.span.start) :
    (cover es).start = v.span.start ∧ (cover es).stop = w.span.stop := by
  have hcover : cover es = v.span.union w.span := by
    rw [cover, hv, hw]
  obtain ⟨rest, rfl⟩ := List.head?_eq_some_iff.1 hv
  rw [hcover, Span.start_union, Span.stop_union]
  rcases List.mem_cons.1 (List.mem_of_mem_getLast? hw) with rfl | hmem
  · exact ⟨Nat.min_self _, Nat.max_self _⟩
  · have hle := List.rel_of_pairwise_cons h hmem
    have h₁ := v.span.start_le
    have h₂ := w.span.start_le
    omega

namespace TextUnit

/-- `Framed ts vs`: up to ends of line around them and the end of input, the tokens are `vs`. -/
def Framed (ts vs : List Token) : Prop :=
  ∃ before after eof, ts = before ++ (vs ++ (after ++ [eof])) ∧ EndsOfLine before ∧
    EndsOfLine after ∧ eof.kind = .endOfInput ∧ (∀ t ∈ vs.head?, t.kind ≠ .endOfLine) ∧
      ∀ t ∈ vs.getLast?, t.kind ≠ .endOfLine

variable {d : Nat} {ts vs : List Token} {parts : List Part} {es : List Tree} {t : Option Tree}

/-- All other tokens are among the framed ones. -/
theorem Framed.mem (h : Framed ts vs) {u : Token} (hu : u ∈ ts) (hline : u.kind ≠ .endOfLine)
    (hinput : u.kind ≠ .endOfInput) : u ∈ vs := by
  obtain ⟨before, after, eof, rfl, hbefore, hafter, heof, -⟩ := h
  rcases List.mem_append.1 hu with hu | hu
  · exact absurd (hbefore u hu) hline
  rcases List.mem_append.1 hu with hu | hu
  · exact hu
  rcases List.mem_append.1 hu with hu | hu
  · exact absurd (hafter u hu) hline
  · rw [List.mem_singleton.1 hu] at hinput
    exact absurd heof hinput

theorem Framed.legible (h : Framed ts vs) (hts : Legible ts) : Legible vs := by
  obtain ⟨before, after, eof, rfl, -⟩ := h
  exact (hts.right before).left _

/-- The statements of a whole text: there are none, or their block covers the text up to ends of line. -/
theorem listed_covers {ends : List Token} {eof : Token} (hends : EndsOfLine ends)
    (hlisting : Listing ts parts es t)
    (hparts : ∀ p ∈ parts, Phrase.Derives d .statement p.1 p.2) (heof : eof.kind = .endOfInput)
    (hlegible : Legible ts) (hsolid : Solid ts) :
    ∃ vs, Framed (ends ++ (ts ++ [eof])) vs ∧
      ((vs = [] ∧ es ++ t.toList = []) ∨ Covers vs (cover (es ++ t.toList))) := by
  by_cases hnil : parts = []
  · subst hnil
    cases hlisting
    refine ⟨[], ⟨ends, [], eof, rfl, hends, .nil, heof, nofun, nofun⟩, .inl ⟨rfl, rfl⟩⟩
  · have hcovers : ∀ p ∈ parts, Covers p.1 p.2.span := fun p hp =>
      (hparts p hp).covers (hlegible.among (hlisting.infix_of_mem hp))
    obtain ⟨last, hlast⟩ := Option.ne_none_iff_exists'.1 (mt List.getLast?_eq_none_iff.1 hnil)
    obtain ⟨first, hfirst⟩ := Option.ne_none_iff_exists'.1 (mt List.head?_eq_none_iff.1 hnil)
    have hmem : first ∈ parts := List.mem_of_mem_head? hfirst
    have hmem' : last ∈ parts := List.mem_of_mem_getLast? hlast
    obtain ⟨vs, after, rfl, hafter, hhead, hend⟩ := hlisting.trim hfirst hlast fun p hp => by
      obtain ⟨u, rest, hp', -⟩ := (hparts p hp).begins
      rw [hp']
      exact List.cons_ne_nil _ _
    have hordered := (hlisting.apart hcovers hlegible hsolid).imp Tree.Apart.stop_le
    obtain ⟨hstart, hstop⟩ := cover_eq (v := first.2) (w := last.2)
      (by rw [List.head?_map, hfirst]; rfl) (by rw [List.getLast?_map, hlast]; rfl) hordered
    rw [hlisting.map_snd] at hstart hstop
    obtain ⟨u, _, hu, _, hu', _⟩ := hcovers first hmem
    obtain ⟨_, w, _, hw, _, hw'⟩ := hcovers last hmem'
    refine ⟨vs, ⟨ends, after, eof, ?_, hends, hafter, heof, ?_, ?_⟩, .inr ⟨u, w, ?_, ?_, ?_, ?_⟩⟩
    · rw [List.append_assoc]
    · rw [hhead]
      exact (hparts first hmem).head_ne
    · rw [hend]
      exact (hparts last hmem').getLast_ne
    · rw [hhead, hu]
    · rw [hend, hw]
    · rw [hstart, hu']
    · rw [hstop, hw']

/-- What holds of the tree of a whole text. All tokens but ends of line and the end of input stand under
it, unless there are none of them. -/
structure Rooted (ts vs : List Token) (T : Tree) : Prop where
  framed : Framed ts vs
  covers : (vs = [] ∧ T = .block .origin [] none) ∨ Covers vs T.span
  inside : ∀ v ∈ T.children, v.span.Within T.span
  apart : T.children.Pairwise (Tree.Apart ts)

/-- Each statement of a whole text lies within the span of all. -/
theorem listed_within (hlisting : Listing ts parts es t)
    (hparts : ∀ p ∈ parts, Phrase.Derives d .statement p.1 p.2) (hlegible : Legible ts) {s : Span}
    (hs : ∀ u ∈ ts, u.kind ≠ .endOfLine → u.span.Within s) {v : Tree} (hv : v ∈ es ++ t.toList) :
    v.span.Within s := by
  obtain ⟨p, hp, rfl⟩ := hlisting.mem_parts hv
  have hsub := (hlisting.infix_of_mem hp).subset
  obtain ⟨first, last, hfirst, hlast, hstart, hstop⟩ :=
    (hparts p hp).covers (hlegible.among (hlisting.infix_of_mem hp))
  have hwithin := hs first (hsub (List.mem_of_mem_head? hfirst)) ((hparts p hp).head_ne _ hfirst)
  have hwithin' := hs last (hsub (List.mem_of_mem_getLast? hlast)) ((hparts p hp).getLast_ne _ hlast)
  exact ⟨hstart ▸ hwithin.1, hstop ▸ hwithin'.2⟩

/-- The block of listed statements. -/
theorem listed_rooted {ends : List Token} {eof : Token} {T : Tree} (hends : EndsOfLine ends)
    (hlisting : Listing ts parts es t)
    (hparts : ∀ p ∈ parts, Phrase.Derives d .statement p.1 p.2) (heof : eof.kind = .endOfInput)
    (hall : Legible (ends ++ (ts ++ [eof])))
    (hsolid : ∀ u ∈ ts, u.kind ≠ .endOfInput ∧ u.span.start < u.span.stop)
    (hspan : T.span = cover (es ++ t.toList)) (hchildren : T.children = es ++ t.toList)
    (hempty : es ++ t.toList = [] → T = .block .origin [] none) :
    ∃ vs, Rooted (ends ++ (ts ++ [eof])) vs T := by
  have hlegible : Legible ts := (hall.right ends).left [eof]
  have hsolid' : Solid ts := fun u hu => (hsolid u hu).2
  obtain ⟨vs, hframed, hcovers⟩ := listed_covers hends hlisting hparts heof hlegible hsolid'
  refine ⟨vs, hframed, ?_, fun v hv => ?_, ?_⟩
  · rw [hspan]
    exact hcovers.imp_left fun h => ⟨h.1, hempty h.2⟩
  · rw [hchildren] at hv
    rw [hspan]
    rcases hcovers with ⟨-, hnil⟩ | hcovers
    · rw [hnil] at hv
      cases hv
    · refine listed_within hlisting hparts hlegible (fun u hu hk => ?_) hv
      refine hcovers.token_within (hframed.legible hall) (hframed.mem ?_ hk (hsolid u hu).1)
      exact List.mem_append_right _ (List.mem_append_left _ hu)
  · have hcovers : ∀ p ∈ parts, Covers p.1 p.2.span := fun p hp =>
      (hparts p hp).covers (hlegible.among (hlisting.infix_of_mem hp))
    have hpairwise := hlisting.apart hcovers hlegible hsolid'
    rw [hchildren, ← hlisting.map_snd]
    exact hpairwise.imp fun h => h.mono fun u hu =>
      List.mem_append_right _ (List.mem_append_left _ hu)

/-- **The root** of a whole text goes from its first to its last token, ends of line aside. -/
theorem Derives.rooted {u : TextUnit} {T : Tree} (h : Derives d u ts T) (hlegible : Legible ts)
    (hsolid : ∀ t ∈ ts, t.kind ≠ .endOfInput → t.span.start < t.span.stop)
    (hinput : ∀ us eof, ts = us ++ [eof] → ∀ t ∈ us, t.kind ≠ .endOfInput) :
    ∃ vs, Rooted ts vs T := by
  have solid : ∀ {before us after : List Token} {eof : Token},
      ts = before ++ (us ++ (after ++ [eof])) →
      ∀ t ∈ us, t.kind ≠ .endOfInput ∧ t.span.start < t.span.stop := by
    intro before us after eof hts t ht
    have hkind := hinput (before ++ (us ++ after)) eof (by simp [hts]) t (by simp [ht])
    exact ⟨hkind, hsolid t (by simp [hts, ht]) hkind⟩
  cases h with
  | @program ends us _ _ _ eof hends hlisting hparts _ heof =>
    refine listed_rooted hends hlisting hparts heof hlegible
      (@solid ends us [] eof (by rw [List.nil_append])) rfl ?_ fun hnil => ?_
    · rw [Tree.children, Option.toList_none, List.append_nil]
    · rw [hnil]
      rfl
  | @single before us T after eof hbefore h hafter heof =>
    have hus : Legible us := (hlegible.right before).left _
    have hcovers := h.covers hus
    exact ⟨us, ⟨before, after, eof, rfl, hbefore, hafter, heof, h.head_ne, h.getLast_ne⟩, .inr hcovers,
      fun v hv => h.children_within hus hv,
      (h.children_apart hus fun t ht => (solid rfl t ht).2).imp fun h => h.mono fun u hu => by simp [hu]⟩
  | @statements ends us _ _ _ eof hends hlisting hparts heof =>
    refine listed_rooted hends hlisting hparts heof hlegible
      (@solid ends us [] eof (by rw [List.nil_append])) rfl rfl fun hnil => ?_
    obtain ⟨rfl, htail⟩ := List.append_eq_nil_iff.1 hnil
    rw [Option.toList_eq_nil_iff.1 htail]
    rfl

end TextUnit

namespace Tree

/-- `ReadFrom T ts path N vs`: of the tokens `ts`, the node `N` at the path in `T` was read from the tokens
`vs`. They form a phrase; or `N` is the root, and they are all but the ends of line around it; or `N` is the
null that a declaration without an initializer is given, which stands for no token and has the place of the
declared name. -/
inductive ReadFrom (T : Tree) (ts : List Token) : List Nat → Tree → List Token → Prop where
  | phrase {path N d x vs} (hvs : vs <:+: ts) (h : Phrase.Derives d x vs N) :
      ReadFrom T ts path N vs
  | root {vs} (h : TextUnit.Framed ts vs) : ReadFrom T ts [] T vs
  | null {path s n s' opener name} (hT : T.at? path = some (.declaration s n (.literal s' .null)))
      (hvs : [opener, name] <:+: ts) (ho : opener.kind = .varWord) (hn : name.IsName n) :
      ReadFrom T ts (0 :: path) (.literal s' .null) [name]

variable {unit : TextUnit} {text : List Char} {T N : Tree} {c : Cursor} {path : List Nat}

/-- A declaration with a null that stands for no text is its word and the name, whose place the null
has. -/
theorem read_bareDeclaration {s s' : Span} {name : String} (hread : read unit text = .ok T c)
    (hN : T.at? path = some (.declaration s name (.literal s' .null))) :
    ∃ opener t, [opener, t] <:+: (Stream.ofText .standard text).tokens ∧ opener.kind = .varWord ∧
      t.IsName name ∧ s' = t.span ∧ t.span.stop ≤ text.length := by
  have himplicit : ¬T.Implicit path := not_implicit hN (by simp)
  obtain ⟨us, eof, htokens, -, x, vs, d, hvs, hderives⟩ := read_derives hread hN (by simp) himplicit
  obtain ⟨opener, t, rfl, ho, ht, rfl⟩ := hderives.eq_of_null
  obtain ⟨hamong, -, hstop⟩ := Stream.legible_within htokens hvs
  exact ⟨opener, t, hamong, ho, ht, rfl, hstop t (by simp)⟩

/-- All nodes of a tree that was read end within the text. -/
theorem read_node_stop_le (hread : read unit text = .ok T c) (hN : T.at? path = some N) :
    N.span.stop ≤ text.length := by
  obtain ⟨us, eof, htokens, -, ⟨rfl, s, es, t, rfl⟩ | ⟨path', s, n, s', rfl, hparent⟩ |
    ⟨x, vs, d, hvs, hderives⟩⟩ := read_phrase hread hN
  · cases hN
    exact read_stop_le hread
  · rw [at?_cons hparent] at hN
    cases hN
    obtain ⟨_, t, -, -, -, rfl, hstop⟩ := read_bareDeclaration hread hparent
    exact hstop
  · obtain ⟨-, hlegible, hstop⟩ := Stream.legible_within htokens hvs
    exact hderives.stop_le hlegible hstop

/-- **Spans are unions**: every node of a tree that was read goes from the first to the last of the tokens
that it was read from, parentheses around it included. What is below it lies within it and stands in a row,
with a token between neighbours. All tokens but ends of line and the end of input lie within the root. -/
theorem read_spans (hread : read unit text = .ok T c) (hN : T.at? path = some N) :
    ((path = [] ∧ N = .block .origin [] none) ∨
      ∃ vs, T.ReadFrom (Stream.ofText .standard text).tokens path N vs ∧ Covers vs N.span) ∧
    (∀ v ∈ N.children, v.span.Within N.span) ∧
    N.children.Pairwise (Apart (Stream.ofText .standard text).tokens) ∧
    ∀ t ∈ (Stream.ofText .standard text).tokens, t.kind ≠ .endOfLine → t.kind ≠ .endOfInput →
      t.span.Within T.span := by
  have hlegible := Stream.legible text
  have hsolid := (Stream.ofText_cuts .standard text).start_lt_stop
  have hinput : ∀ us eof, (Stream.ofText .standard text).tokens = us ++ [eof] →
      ∀ t ∈ us, t.kind ≠ .endOfInput := fun us eof hts =>
    (Stream.proper text).kind_ne hts (List.cons_ne_nil _ _)
  obtain ⟨us, eof, htokens, hkind, hnode⟩ := read_phrase hread hN
  obtain ⟨ws, hroot⟩ := (read_sound hread).2.rooted hlegible hsolid hinput
  have hall : ∀ t ∈ (Stream.ofText .standard text).tokens, t.kind ≠ .endOfLine →
      t.kind ≠ .endOfInput → t.span.Within T.span := by
    intro t ht hline hend
    have hmem := hroot.framed.mem ht hline hend
    rcases hroot.covers with ⟨rfl, -⟩ | hcovers
    · cases hmem
    · exact hcovers.token_within (hroot.framed.legible hlegible) hmem
  rw [← and_assoc, ← and_assoc]
  refine ⟨?_, hall⟩
  rcases hnode with ⟨rfl, s, es, t, rfl⟩ | himplicit | ⟨x, vs, d, hvs, hderives⟩
  · cases hN
    refine ⟨⟨?_, hroot.inside⟩, hroot.apart⟩
    exact hroot.covers.imp (fun h => ⟨rfl, h.2⟩) fun h => ⟨ws, .root hroot.framed, h⟩
  · obtain ⟨path', s, n, s', rfl, hparent⟩ := himplicit
    rw [at?_cons hparent] at hN
    cases hN
    obtain ⟨opener, name, hamong, ho, hn, rfl, -⟩ := read_bareDeclaration hread hparent
    exact ⟨⟨.inr ⟨[name], .null hparent hamong ho hn, Covers.single name⟩, nofun⟩, .nil⟩
  · obtain ⟨hamong, hvs', -⟩ := Stream.legible_within htokens hvs
    refine ⟨⟨.inr ⟨vs, .phrase hamong hderives, hderives.covers hvs'⟩,
      fun v hv => hderives.children_within hvs' hv⟩, ?_⟩
    have hmem := List.IsInfix.subset hamong
    have hsolid' : Solid vs := fun t ht => hsolid t (hmem ht) (hkind t (hvs.subset ht))
    exact (hderives.children_apart hvs' hsolid').imp fun h => h.mono hmem

/-- A statement in front of an end of line, and its block. -/
theorem read_spans_of_line :
    ∃ T c, read .statements "var x\n(x)".toList = .ok T c ∧ T.at? [] = some T ∧
      ((([] : List Nat) = [] ∧ T = .block .origin [] none) ∨
        ∃ vs, T.ReadFrom (Stream.ofText .standard "var x\n(x)".toList).tokens [] T vs ∧
          Covers vs T.span) ∧
      (∀ v ∈ T.children, v.span.Within T.span) ∧
      T.children.Pairwise (Apart (Stream.ofText .standard "var x\n(x)".toList).tokens) ∧
      ∀ t ∈ (Stream.ofText .standard "var x\n(x)".toList).tokens, t.kind ≠ .endOfLine →
        t.kind ≠ .endOfInput → t.span.Within T.span := by
  obtain ⟨T, c, h⟩ := Cursor.exists_ok (r := read .statements "var x\n(x)".toList) (by decide +kernel)
  have hroot : T.at? [] = some T := rfl
  exact ⟨T, c, h, hroot, read_spans h hroot⟩

/-- The block of a whole text does not go as far as the end of line that is taken behind its last
statement. -/
theorem read_takes_more_than_span :
    ∃ T c, read .statements "x\n".toList = .ok T c ∧ ¬Covers c.before.reverse T.span := by
  have hstops : (match read .statements "x\n".toList with
    | .ok T c => some (T.span.stop, c.before.head?.map fun t => t.span.stop)
    | .error _ _ => none) = some (1, some 2) := by decide +kernel
  split at hstops
  · next T c h =>
    refine ⟨T, c, h, ?_⟩
    rintro ⟨_, last, -, hlast, -, hstop⟩
    rw [List.getLast?_reverse] at hlast
    rw [hlast, hstop] at hstops
    obtain ⟨hspan, htaken⟩ := Prod.mk.inj (Option.some.inj hstops)
    exact absurd (hspan.symm.trans (Option.some.inj htaken)) (by decide)
  · cases hstops

end Tree

end Curly
