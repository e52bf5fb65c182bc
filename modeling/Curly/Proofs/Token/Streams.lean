import Curly.Proofs.Token.Lexemes
import Curly.Token.Stream

/-!
# Streams as cuts

A stream is found by skipping characters one at a time. `Stream.Cuts` says the same by whole pieces:
what stands at the beginning of the text is cut off, and the rest is cut in the same way. Facts about
streams are shown by induction on the cut.

## Main definitions

* `Stream.Cuts`: the stream of a text that begins at an offset.
* `Stream.Proper`: the end of input is the last token of a text without faults, and no other token.

## Main statements

* `Stream.ofText_cuts`: the stream of a text is cut from it.
* `Stream.Cuts.legible`, `Stream.Cuts.proper`: what the streams of the language are like.
-/

namespace Curly

namespace Stream

variable {table : Table}

/-- `Cuts table offset text s`: the text, which begins at the offset, is cut into the stream `s`. -/
inductive Cuts (table : Table) : Nat → List Char → Stream → Prop where
  | done {offset} : Cuts table offset [] ⟨[Token.endOfInput offset], .exhausted⟩
  | space {offset c rest n s} (h : Reading.ofText table c rest = .space n)
      (hs : Cuts table (offset + n) ((c :: rest).drop n) s) : Cuts table offset (c :: rest) s
  | lexeme {offset c rest l s} (h : Reading.ofText table c rest = .lexeme l) (hl : l.length ≠ 0)
      (hs : Cuts table (offset + l.length) ((c :: rest).drop l.length) s) :
      Cuts table offset (c :: rest)
        (cons ⟨l.kind, .ofLength offset l.length, l.payload, (c :: rest).take l.length⟩ s)
  | stalled {offset c rest l} (h : Reading.ofText table c rest = .lexeme l) (hl : l.length = 0) :
      Cuts table offset (c :: rest) ⟨[], .stalled
        ⟨l.kind, .ofLength offset l.length, l.payload, (c :: rest).take l.length⟩⟩
  | fault {offset c rest cause start length}
      (h : Reading.ofText table c rest = .fault cause start length) :
      Cuts table offset (c :: rest)
        ⟨[], .failed offset ⟨cause, .ofLength (offset + start) length⟩⟩
  | unmatched {offset c rest} (h : Reading.ofText table c rest = .unmatched) :
      Cuts table offset (c :: rest) ⟨[], .unmatched offset⟩

/-- Skipping characters is dropping them. -/
theorem scan_cuts {k offset : Nat} {text : List Char} (hk : k ≤ text.length) :
    Cuts table (offset + k) (text.drop k) (scan table k offset text) := by
  have tail : ∀ {n offset : Nat} {c : Char} {rest : List Char} {s : Stream}, 0 < n →
      Cuts table (offset + 1 + (n - 1)) (rest.drop (n - 1)) s →
      Cuts table (offset + n) ((c :: rest).drop n) s := by
    intro n offset c rest s hn h
    obtain ⟨n, rfl⟩ := Nat.exists_eq_succ_of_ne_zero (Nat.ne_of_gt hn)
    rwa [Nat.succ_sub_one, Nat.add_assoc, Nat.add_comm 1] at h
  -- The induction is on the text, with any number of characters still to be skipped.
  induction text generalizing k offset with
  | nil =>
    obtain rfl : k = 0 := Nat.le_zero.1 hk
    exact .done
  | cons c rest ih =>
    cases k with
    | succ k =>
      rw [scan]
      exact tail (Nat.succ_pos k) (ih (Nat.le_of_succ_le_succ hk))
    | zero =>
      rw [scan, Nat.add_zero, List.drop_zero]
      split
      · next n h =>
        have hn := Reading.le_of_space h
        have hle : n - 1 ≤ rest.length := by
          have := hn.2
          rw [List.length_cons] at this
          omega
        exact .space h (tail hn.1 (ih hle))
      · next l h =>
        dsimp only
        split
        · next hl => exact .stalled h hl
        · next hl =>
          have hle : l.length - 1 ≤ rest.length := by
            have := Reading.le_of_lexeme h
            rw [List.length_cons] at this
            omega
          exact .lexeme h hl (tail (Nat.pos_of_ne_zero hl) (ih hle))
      · next h => exact .fault h
      · next h => exact .unmatched h

/-- The stream of a text is cut from it. -/
theorem ofText_cuts (table : Table) (text : List Char) : Cuts table 0 text (ofText table text) :=
  scan_cuts (Nat.zero_le _)

/-- A text is cut in one way only. -/
theorem Cuts.unique {offset : Nat} {text : List Char} {s s' : Stream} (h : Cuts table offset text s)
    (h' : Cuts table offset text s') : s = s' := by
  -- What stands at the beginning decides between the rules, since it is read in one way only.
  induction h generalizing s' with
  | done =>
    cases h'
    rfl
  | space h _ ih =>
    cases h' with
    | space h' hs =>
      cases h.symm.trans h'
      exact ih hs
    | _ => simp_all only [reduceCtorEq]
  | lexeme h hl _ ih =>
    cases h' with
    | lexeme h' _ hs =>
      cases h.symm.trans h'
      rw [ih hs]
    | stalled h' hl' =>
      cases h.symm.trans h'
      exact absurd hl' hl
    | _ => simp_all only [reduceCtorEq]
  | stalled h hl =>
    cases h' with
    | lexeme h' hl' =>
      cases h.symm.trans h'
      exact absurd hl hl'
    | stalled h' =>
      cases h.symm.trans h'
      rfl
    | _ => simp_all only [reduceCtorEq]
  | fault h =>
    cases h' with
    | fault h' =>
      cases h.symm.trans h'
      rfl
    | _ => simp_all only [reduceCtorEq]
  | unmatched h =>
    cases h' with
    | unmatched => rfl
    | _ => simp_all only [reduceCtorEq]

/-- The end of input comes last in a text without faults, and nowhere else. -/
structure Proper (s : Stream) : Prop where
  regular : ∀ t, s.ending ≠ .stalled t
  ends : s.ending = .exhausted → ∃ ts eof, s.tokens = ts ++ [eof] ∧ eof.kind = .endOfInput
  ended : ∀ ts eof us, s.tokens = ts ++ eof :: us → eof.kind = .endOfInput →
    us = [] ∧ s.ending = .exhausted

/-- The tokens before others are no ends of input. -/
theorem Proper.kind_ne {s : Stream} {us rest : List Token} (h : s.Proper) (hs : s.tokens = us ++ rest)
    (hrest : rest ≠ []) : ∀ t ∈ us, t.kind ≠ .endOfInput := by
  intro t ht hk
  obtain ⟨before, after, rfl⟩ := List.append_of_mem ht
  rw [List.append_assoc] at hs
  exact hrest (List.append_eq_nil_iff.1 (h.ended before t _ hs hk).1).2

namespace Cuts

variable {offset : Nat} {text : List Char} {s : Stream}

theorem start_le (h : Cuts table offset text s) : ∀ t ∈ s.tokens, offset ≤ t.span.start := by
  induction h with
  | done =>
    intro t ht
    rw [List.mem_singleton.1 ht]
    exact Nat.le_refl _
  | space _ _ ih => exact fun t ht => Nat.le_trans (Nat.le_add_right _ _) (ih t ht)
  | lexeme _ _ _ ih =>
    intro t ht
    rcases List.mem_cons.1 ht with rfl | ht
    · exact Nat.le_refl _
    · exact Nat.le_trans (Nat.le_add_right _ _) (ih t ht)
  | _ => exact fun t ht => absurd ht (by simp)

/-- Where a text ends does not depend on how much of it was cut off. -/
theorem stop_drop {n : Nat} (hn : n ≤ text.length) :
    offset + n + (text.drop n).length = offset + text.length := by
  rw [List.length_drop]
  omega

/-- Only a fault can take the place of the end of input, and what is faulty lies within the text. -/
theorem ending_cases (h : Cuts .standard offset text s) : s.ending = .exhausted ∨
    ∃ begins e, s.ending = .failed begins e ∧ e.span.stop ≤ offset + text.length := by
  induction h with
  | done => exact .inl rfl
  | space hr _ ih => rwa [stop_drop (Reading.le_of_space hr).2] at ih
  | lexeme hr _ _ ih => rwa [stop_drop (Reading.le_of_lexeme hr)] at ih
  | stalled hr hl => exact absurd hl (Nat.ne_of_gt (Reading.sound_of_lexeme hr).length_pos)
  | unmatched hr => exact absurd hr Reading.ofText_standard_ne_unmatched
  | @fault offset c rest cause start length hr =>
    refine .inr ⟨_, _, rfl, ?_⟩
    rw [Span.stop_ofLength, Nat.add_assoc]
    exact Nat.add_le_add_left (Reading.le_of_fault hr) offset

/-- The tokens of a text of the language stand one after the other and fit their kinds. -/
theorem legible (h : Cuts .standard offset text s) : Legible s.tokens := by
  induction h with
  | done =>
    exact ⟨List.pairwise_singleton .., by simp [Token.Fits, Token.endOfInput],
      by simp [Token.endOfInput]⟩
  | space _ _ ih => exact ih
  | @lexeme offset c rest l s hr hl hs ih =>
    have hsound := Reading.sound_of_lexeme hr
    refine ⟨List.pairwise_cons.2 ⟨hs.start_le, ih.ordered⟩, fun t ht => ?_, fun t ht hk => ?_⟩
    · rcases List.mem_cons.1 ht with rfl | ht
      · exact hsound.fits _ _
      · exact ih.fits t ht
    · rcases List.mem_cons.1 ht with rfl | ht
      · exact Nat.lt_of_lt_of_eq hsound.length_pos (Span.length_ofLength _ _).symm
      · exact ih.openers t ht hk
  | _ => exact ⟨.nil, by simp, by simp⟩

theorem proper (h : Cuts .standard offset text s) : s.Proper := by
  induction h with
  | @done offset =>
    refine ⟨by simp, fun _ => ⟨[], _, rfl, rfl⟩, fun ts eof us hts _ => ⟨?_, rfl⟩⟩
    cases ts with
    | nil => exact (List.cons.inj hts).2.symm
    | cons t ts => exact absurd (List.cons.inj hts).2 (by simp)
  | space _ _ ih => exact ih
  | @lexeme offset c rest l s hr hl hs ih =>
    have hsound := Reading.sound_of_lexeme hr
    refine ⟨ih.regular, fun he => ?_, fun ts eof us hts hk => ?_⟩
    · obtain ⟨ts, eof, hts, heof⟩ := ih.ends he
      exact ⟨_ :: ts, eof, by rw [cons, hts]; rfl, heof⟩
    · cases ts with
      | nil =>
        cases hts
        exact absurd hk hsound.kind_ne
      | cons t ts =>
        have htail : s.tokens = ts ++ eof :: us := by
          injection hts
        exact ih.ended ts eof us htail hk
  | stalled hr hl => exact absurd hl (Nat.ne_of_gt (Reading.sound_of_lexeme hr).length_pos)
  | unmatched hr => exact absurd hr Reading.ofText_standard_ne_unmatched
  | fault => exact ⟨by simp, by simp, by simp⟩

end Cuts

theorem legible (text : List Char) : Legible (ofText .standard text).tokens :=
  (ofText_cuts _ _).legible

/-- Some tokens in a row are legible, too. -/
theorem legible_among {text : List Char} {before ts after : List Token}
    (h : (ofText .standard text).tokens = before ++ (ts ++ after)) : Legible ts :=
  (legible text).among ⟨before, after, by rw [h, List.append_assoc]⟩

theorem proper (text : List Char) : (ofText .standard text).Proper :=
  (ofText_cuts _ _).proper

end Stream

end Curly
