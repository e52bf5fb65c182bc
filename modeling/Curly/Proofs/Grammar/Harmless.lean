import Curly.Proofs.Grammar.Slices
import Curly.Proofs.Run.Safety

/-!
# Trees that are read are harmless

## Main statements

* `Phrase.Derives.harmless`: the trees of phrases are harmless.
* `Tree.read_harmless`: all nodes of a tree that was read are harmless.
* `Tree.read_run_native`: so statements that were read are run safely.
-/

namespace Curly

namespace Phrase

theorem native_of_literal {t : Token} {v : Value} (h : literal? t = some v) : v.Native := by
  simp only [literal?] at h
  split at h
  case h_5 => cases h
  all_goals
    cases h
    intro hkind
    cases hkind

end Phrase

namespace Phrase.Derives

variable {d n : Nat} {x : Phrase} {ts : List Token} {T : Tree}

/-- A literal is read from a token that says its value. -/
theorem exists_literal (h : Derives d x ts T) {s : Span} {v : Value} (hT : T = .literal s v) :
    ∃ t ∈ ts, literal? t = some v := by
  induction h generalizing s with
  | evaluation _ ih => exact ih hT
  | operation _ ih => exact ih hT
  | tighter _ ih => exact ih hT
  | unsigned _ ih => exact ih hT
  | uncalled _ ih => exact ih hT
  | literal h =>
    cases hT
    exact ⟨_, List.mem_cons_self .., h⟩
  | @parenthesized _ _ _ T _ _ _ _ ih =>
    cases T with
    | literal s' w =>
      cases hT
      obtain ⟨t, ht, h⟩ := ih rfl
      exact ⟨t, List.mem_cons_of_mem _ (List.mem_append_left _ ht), h⟩
    | _ => cases hT
  | _ => cases hT

theorem native_of_literal (h : Derives d x ts T) {s : Span} {v : Value} (hT : T = .literal s v) :
    v.Native := by
  obtain ⟨t, -, ht⟩ := h.exists_literal hT
  exact Phrase.native_of_literal ht

/-- An assignment is longer than the name that it is for, with or without parentheses around it. -/
theorem length_le_of_assignment (h : Derives d x ts T) (hts : Legible ts) {s : Span} {name : String}
    {V : Tree} (hT : T = .assignment s name V) : s.start + name.length ≤ s.stop := by
  induction h generalizing s with
  | evaluation _ ih => exact ih hts hT
  | operation _ ih => exact ih hts hT
  | tighter _ ih => exact ih hts hT
  | unsigned _ ih => exact ih hts hT
  | uncalled _ ih => exact ih hts hT
  | @assignment _ t _ _ _ _ hn _ _ =>
    cases hT
    have hlength := hts.length_eq_of_name (List.mem_cons_self ..) hn.1 hn.2
    have hle := t.span.start_le
    simp only [Span.length, Span.start_union, Span.stop_union] at hlength ⊢
    omega
  | @parenthesized _ opener ts T closer ho h _ ih =>
    obtain ⟨hstart, hstop⟩ := h.enclosed hts ho
    cases T with
    | assignment s' name' V' =>
      cases hT
      have := ih (hts.tail.left [closer]) rfl
      simp only [Tree.span] at hstart hstop
      omega
    | _ => cases hT
  | _ => cases hT

theorem stop_le (h : Derives d x ts T) (hts : Legible ts) (hn : ∀ t ∈ ts, t.span.stop ≤ n) :
    T.span.stop ≤ n := by
  obtain ⟨_, last, _, hlast, _, hstop⟩ := h.covers hts
  exact hstop ▸ hn last (List.mem_of_mem_getLast? hlast)

/-- The tree of a phrase is harmless in every text that contains its tokens. -/
theorem harmless (h : Derives d x ts T) (hts : Legible ts) (hn : ∀ t ∈ ts, t.span.stop ≤ n) :
    T.Harmless n := by
  have hspan := h.stop_le hts hn
  refine ⟨fun s v hT => h.native_of_literal hT, fun cause span hraises => ?_, fun s body hT => ?_⟩
  · cases hraises with
    | nameless => exact absurd rfl h.plays.meant.1
    | bare => exact absurd rfl h.plays.meant.2
    | assignment => exact ⟨nofun, Nat.le_trans (h.length_le_of_assignment hts rfl) hspan⟩
    | _ => exact ⟨nofun, hspan⟩
  · subst hT
    exact hspan

end Phrase.Derives

/-- Trees that end within a text are covered by a span that does. -/
theorem TextUnit.cover_stop_le {es : List Tree} {n : Nat} (h : ∀ v ∈ es, v.span.stop ≤ n) :
    (cover es).stop ≤ n := by
  unfold cover
  split
  · next first last hfirst hlast =>
    rw [Span.stop_union]
    exact Nat.max_le.2 ⟨h first (List.mem_of_mem_head? hfirst), h last (List.mem_of_mem_getLast? hlast)⟩
  · exact Nat.zero_le n

/-- Tokens in a row, taken from the first tokens of a text, are legible and lie within the text. -/
theorem Stream.legible_within {text : List Char} {us vs post : List Token}
    (htokens : (ofText .standard text).tokens = us ++ post) (hvs : vs <:+: us) :
    vs <:+: (ofText .standard text).tokens ∧ Legible vs ∧ ∀ t ∈ vs, t.span.stop ≤ text.length := by
  have hamong : vs <:+: (ofText .standard text).tokens := by
    rw [htokens]
    exact hvs.trans (List.prefix_append us post).isInfix
  refine ⟨hamong, (legible text).among hamong, fun t ht => ?_⟩
  have hstop := (ofText_cuts .standard text).stop_le t (hamong.subset ht)
  rwa [Nat.zero_add] at hstop

namespace Tree

variable {unit : TextUnit} {text : List Char} {T u : Tree} {c : Cursor} {path : List Nat} {n : Nat}

/-- What is written in a text is derived from tokens of the text. -/
theorem Written.exists_derives {d : Nat} {us post : List Token} (h : Written d us T)
    (hts : (Stream.ofText .standard text).tokens = us ++ post) :
    ∃ e x vs, Phrase.Derives e x vs T ∧ Legible vs ∧ ∀ t ∈ vs, t.span.stop ≤ text.length := by
  obtain ⟨x, vs, e, hvs, -, hT⟩ := h
  obtain ⟨-, hlegible, hstop⟩ := Stream.legible_within hts hvs
  exact ⟨e, x, vs, hT, hlegible, hstop⟩

/-- The evaluation of a block raises no errors by itself. -/
theorem harmless_block {s : Span} {es : List Tree} {t : Option Tree} :
    (block s es t).Harmless n where
  literal := fun _ _ h => by cases h
  raises := fun _ _ h => by cases h
  loop := fun _ _ h => by cases h

theorem harmless_null {s : Span} : (literal s .null).Harmless n where
  literal := fun _ _ h => by
    cases h
    nofun
  raises := fun _ _ h => by cases h
  loop := fun _ _ h => by cases h

/-- **Trees that are read are harmless**, with all nodes in them. -/
theorem read_harmless (h : read unit text = .ok T c) (hu : T.at? path = some u) :
    u.Harmless text.length := by
  by_cases hblock : ∃ s es t, u = .block s es t
  · obtain ⟨s, es, t, rfl⟩ := hblock
    exact harmless_block
  by_cases himplicit : T.Implicit path
  · obtain ⟨path', s, n, s', rfl, hparent⟩ := himplicit
    rw [at?_cons hparent] at hu
    cases hu
    exact harmless_null
  · obtain ⟨us, eof, htokens, -, hwritten⟩ :=
      read_written h hu (fun s es t heq => hblock ⟨s, es, t, heq⟩) himplicit
    obtain ⟨d, hwritten⟩ : ∃ d, Written d us u := hwritten.elim (⟨_, ·⟩) fun h => ⟨_, h.2.2⟩
    obtain ⟨_, x, vs, hderives, hlegible, hstop⟩ := hwritten.exists_derives htokens
    exact hderives.harmless hlegible hstop

/-- The span of a tree that was read lies within the text. -/
theorem read_stop_le (h : read unit text = .ok T c) : T.span.stop ≤ text.length := by
  obtain ⟨-, hT⟩ := read_sound h
  obtain ⟨us, eof, htokens, hwritten⟩ := hT.written
  have stop : ∀ {d v}, Written d us v → v.span.stop ≤ text.length := by
    intro d v hv
    obtain ⟨_, x, vs, hderives, hlegible, hstop⟩ := hv.exists_derives htokens
    exact hderives.stop_le hlegible hstop
  rcases hwritten with ⟨hchildren, s, es, t, rfl⟩ | hwritten
  · have hunit : unit ≠ .single := by
      rintro rfl
      cases hT.plays with
      | evaluation h => cases h
    obtain ⟨es', t', heq⟩ := hT.exists_block hunit
    cases heq
    exact TextUnit.cover_stop_le fun v hv =>
      (hchildren v hv).elim stop fun h => stop h.2.written
  · exact stop hwritten

/-- Statements that were read are run safely. -/
theorem read_run_native (h : read unit text = .ok T c) (hunit : unit ≠ .single) (limits : Limits) :
    Run.Triple (fun r => r.scopes.Native) (T.run limits)
      (Run.Kept Value.Native fun r => r.scopes.Native)
      fun e r => e.OfText text.length limits ∧ r.scopes.Native := by
  have hstop := read_stop_le h
  obtain ⟨es, t, rfl⟩ := (read_sound h).2.exists_block hunit
  exact run_native hstop fun path u hu => read_harmless h hu

end Tree

end Curly
