import Curly.Proofs.Grammar.Completeness
import Curly.Proofs.Grammar.Soundness
import Curly.Proofs.Grammar.Transport
import Curly.Proofs.Reading.Depth
import Curly.Proofs.Token.Streams

/-!
# Texts are read by the grammar

A text is read as a tree exactly if its tokens form a text of the grammar with this tree, unless it is
nested too deeply.

## Main statements

* `TextUnit.Derivable.sameForm`: the grammar is unambiguous.
* `Tree.read_sound`, `Tree.read_complete`: what is read is derived, and what is derived is read.
* `Tree.read_statements_iff_derivable`: both at once for statements.
-/

namespace Curly

open Cursor

namespace TextUnit

variable {u : TextUnit} {ts ts' : List Token} {T T' : Tree}

theorem Derives.mono {d d' : Nat} (h : Derives d u ts T) (hd : d ≤ d') : Derives d' u ts T := by
  cases h with
  | program hends hts hparts hdecl heof =>
    exact .program hends hts (fun p hp => (hparts p hp).mono (Nat.succ_le_succ hd)) hdecl heof
  | single hbefore h hafter heof => exact .single hbefore (h.mono hd) hafter heof
  | statements hends hts hparts heof =>
    exact .statements hends hts (fun p hp => (hparts p hp).mono hd) heof

/-- The last token of a whole text is the end of input. -/
theorem Derives.kind_eq {d : Nat} {us : List Token} {eof : Token} (h : Derives d u (us ++ [eof]) T) :
    eof.kind = .endOfInput := by
  have last : ∀ {vs eof'}, us ++ [eof] = vs ++ [eof'] → eof'.kind = .endOfInput →
      eof.kind = .endOfInput := by
    intro vs eof' heq hkind
    have := (List.append_inj' heq rfl).2
    rwa [List.singleton_inj.1 this]
  generalize hts : us ++ [eof] = ts at h
  cases h with
  | program _ _ _ _ heof => exact last (hts.trans (List.append_assoc ..).symm) heof
  | single _ _ _ heof =>
    rw [← List.append_assoc, ← List.append_assoc] at hts
    exact last hts heof
  | statements _ _ _ heof => exact last (hts.trans (List.append_assoc ..).symm) heof

/-- The token where a derivation can be read: a name covers as many characters as it has. -/
def placed (t : Token) : Token :=
  match t.payload with
  | .name s => { t with span := .ofLength 0 s.length }
  | _ => t

theorem placed_nameFits (t : Token) : (placed t).NameFits := by
  intro s _ hs
  unfold placed at hs ⊢
  split at hs
  · next n hn =>
    dsimp only at hs ⊢
    rw [hn] at hs
    cases hs
    exact Span.length_ofLength _ _
  · next hn => exact absurd hs (hn s)

theorem placed_similar {t t' : Token} (h : t.Similar (fun _ _ => True) t') :
    t.Similar (fun _ _ => True) (placed t') := by
  unfold placed
  split
  · exact ⟨h.kind, h.payload, trivial⟩
  · exact h

/-- Names that fit make a derivation readable, and what is read is determined. -/
theorem Derivable.eq_of_nameFits (h : u.Derivable ts T) (h' : u.Derivable ts T')
    (hfits : ∀ t ∈ ts, t.NameFits) : T = T' := by
  obtain ⟨d, hT⟩ := h
  obtain ⟨d', hT'⟩ := h'
  let S : Setting := ⟨.standard, ts.length + 1⟩
  obtain ⟨_, hreads⟩ := (hT.mono (Nat.le_max_left d d')).reads (S := S) rfl hfits
    (Nat.lt_succ_self _)
  obtain ⟨_, hreads'⟩ := (hT'.mono (Nat.le_max_right d d')).reads (S := S) rfl hfits
    (Nat.lt_succ_self _)
  obtain ⟨c, hc, _⟩ := hreads (.ofStream ⟨ts, .exhausted⟩) rfl
  obtain ⟨c', hc', _⟩ := hreads' (.ofStream ⟨ts, .exhausted⟩) rfl
  cases hc.symm.trans hc'
  rfl

/-- **The grammar is unambiguous**: tokens that say the same have trees of the same form. -/
theorem Derivable.sameForm (h : u.Derivable ts T) (h' : u.Derivable ts' T')
    (hts : List.Forall₂ (Token.Similar fun _ _ => True) ts ts') : T.SameForm T' := by
  have joins : Joins fun _ _ => True := fun _ _ _ _ _ _ => trivial
  -- Both derivations are moved to the same tokens, where one of the rules reads both trees.
  have hplaced : List.Forall₂ (Token.Similar fun _ _ => True) ts (ts'.map placed) := by
    rw [List.forall₂_map_right_iff]
    exact hts.imp fun _ _ => placed_similar
  have hplaced' : List.Forall₂ (Token.Similar fun _ _ => True) ts' (ts'.map placed) := by
    rw [List.forall₂_map_right_iff, List.forall₂_same]
    exact fun t _ => placed_similar ⟨rfl, rfl, trivial⟩
  obtain ⟨d, hT⟩ := h
  obtain ⟨d', hT'⟩ := h'
  obtain ⟨U, hU, hsimilar⟩ := hT.transport joins trivial hplaced
  obtain ⟨U', hU', hsimilar'⟩ := hT'.transport joins trivial hplaced'
  have hfits : ∀ t ∈ ts'.map placed, t.NameFits := by
    intro t ht
    obtain ⟨t', _, rfl⟩ := List.mem_map.1 ht
    exact placed_nameFits t'
  obtain rfl := Derivable.eq_of_nameFits ⟨d, hU⟩ ⟨d', hU'⟩ hfits
  exact hsimilar.trans (hsimilar'.symm fun _ _ _ => trivial) fun _ _ _ _ _ => trivial

end TextUnit

namespace Tree

variable {u : TextUnit} {text : List Char} {T : Tree} {n : Nat}

/-- What is read is derived from the tokens of the text, which has no faults. -/
theorem read_sound {c : Cursor} (h : readWithin n u text = .ok T c) :
    (Stream.ofText .standard text).ending = .exhausted ∧
      u.Derives n (Stream.ofText .standard text).tokens T := by
  have hproper := Stream.proper text
  let S := Setting.ofStream .standard (Stream.ofText .standard text)
  obtain ⟨-, us, eof, rest, htokens, hrest, hT⟩ :=
    TextUnit.read_ensures (S := S) rfl n u (Stream.legible text)
      (.ofStream (Stream.ofText .standard text)) T c hproper.regular rfl h
  rw [hrest] at htokens
  obtain ⟨rfl, hending⟩ := hproper.ended us eof rest htokens hT.kind_eq
  rw [htokens]
  exact ⟨hending, hT⟩

/-- What is derived from the tokens of a text is read, unless it is nested too deeply. -/
theorem read_complete (n : Nat) (h : u.Derivable (Stream.ofText .standard text).tokens T) :
    (∃ c, readWithin n u text = .error .tooDeep c) ∨ ∃ c, readWithin n u text = .ok T c := by
  obtain ⟨d, hT⟩ := h
  let S := Setting.ofStream .standard (Stream.ofText .standard text)
  -- Rules with enough room read the tree, and those with less of it can only run out of it.
  obtain ⟨_, hreads⟩ := (hT.mono (Nat.le_max_right n d)).reads (S := S) rfl
    (Stream.legible text).nameFits (Nat.lt_succ_self _)
  obtain ⟨c, hc, _⟩ := hreads (.ofStream (Stream.ofText .standard text)) rfl
  have hupTo := TextUnit.read_upTo (.refl S) (rulesAt_upTo (.refl S) (Nat.le_max_left n d)) u
  rcases hupTo.ok_or hc with ⟨_, c', rfl, h⟩ | h
  · exact .inl ⟨c', h⟩
  · exact .inr ⟨c, h⟩

/-- What is derived with at most as much nesting as is allowed is read. -/
theorem read_of_derives (h : u.Derives n (Stream.ofText .standard text).tokens T) :
    ∃ c, readWithin n u text = .ok T c := by
  let S := Setting.ofStream .standard (Stream.ofText .standard text)
  obtain ⟨_, hreads⟩ := h.reads (S := S) rfl (Stream.legible text).nameFits (Nat.lt_succ_self _)
  obtain ⟨c, hc, _⟩ := hreads (.ofStream (Stream.ofText .standard text)) rfl
  exact ⟨c, hc⟩

/-- A text is read if and only if it is derived and has no faults. -/
theorem read_iff_derives : (∃ c, readWithin n u text = .ok T c) ↔
    (Stream.ofText .standard text).ending = .exhausted ∧
      u.Derives n (Stream.ofText .standard text).tokens T :=
  ⟨fun ⟨_, h⟩ => read_sound h, fun ⟨_, h⟩ => read_of_derives h⟩

/-- What is read is read with more room as well. -/
theorem read_mono {n' : Nat} (hn : n ≤ n') (h : ∃ c, readWithin n u text = .ok T c) :
    ∃ c, readWithin n' u text = .ok T c :=
  read_iff_derives.2 ((read_iff_derives.1 h).imp_right fun h => h.mono hn)

/-- What is read with enough room is read with less of it, unless it is nested too deeply for that. -/
theorem read_deep_or {n' : Nat} (n : Nat) (h : ∃ c, readWithin n' u text = .ok T c) :
    (∃ c, readWithin n u text = .error .tooDeep c) ∨ ∃ c, readWithin n u text = .ok T c :=
  read_complete n ⟨n', (read_iff_derives.1 h).2⟩

/-- **Statements are read exactly by the grammar.** A text is read as a tree if and only if it can be cut
into tokens that form statements with this tree and are not nested more deeply than is allowed. Unless it
is reported to be nested too deeply, the nesting does not matter, and where it is, nothing is derived
within the limit. Tokens that say the same form trees that are equal up to their spans. -/
theorem read_statements_iff_derivable (text : List Char) :
    (∀ T, (∃ c, read .statements text = .ok T c) ↔
      (Stream.ofText .standard text).ending = .exhausted ∧
        TextUnit.statements.Derives nestingLimit (Stream.ofText .standard text).tokens T) ∧
    ((∃ c, read .statements text = .error .tooDeep c) ∨
      ∀ T, (∃ c, read .statements text = .ok T c) ↔
        (Stream.ofText .standard text).ending = .exhausted ∧
          TextUnit.statements.Derivable (Stream.ofText .standard text).tokens T) ∧
    ∀ ts ts' T T', List.Forall₂ (Token.Similar fun _ _ => True) ts ts' →
      TextUnit.statements.Derivable ts T → TextUnit.statements.Derivable ts' T' →
        T.SameForm T' := by
  refine ⟨fun _ => read_iff_derives, ?_,
    fun ts ts' T T' hts h h' => h.sameForm h' hts⟩
  by_cases hdeep : ∃ c, read .statements text = .error .tooDeep c
  · exact .inl hdeep
  · refine .inr fun T => ⟨?_, ?_⟩
    · rintro ⟨c, hc⟩
      obtain ⟨hending, hT⟩ := read_sound hc
      exact ⟨hending, nestingLimit, hT⟩
    · rintro ⟨_, hT⟩
      exact (read_complete nestingLimit hT).resolve_left hdeep

end Tree

end Curly
