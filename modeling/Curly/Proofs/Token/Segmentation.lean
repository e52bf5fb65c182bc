import Curly.Proofs.Token.Spelled
import Curly.Proofs.Token.Writing

/-!
# The longest lexeme at each place

The tokens of a text without mention of how they are found: behind white space, the longest prefix of
what is left that spells a lexeme, again and again, until nothing is left or no lexeme begins.

## Main definitions

* `Lexeme.Begin`, `Lexeme.Longest`: a lexeme begins a text, and no other one that does is longer.
* `Reading.Faulty`: what is wrong with a text that no lexeme begins.
* `Stream.Segmented`: a text in pieces, each the longest possible.
* `Stream.leftover`: what no token of the text was read off.

## Main statements

* `Reading.ofText_iff_longest`, `Reading.ofText_iff_faulty`: what stands at the beginning of a text.
* `Stream.ofText_iff_segmented`: the stream of a text is its only segmentation.
* `Stream.ofText_maximal_munch`: the tokens of a text, and where they end.
-/

namespace Curly

namespace Lexeme

/-- A lexeme begins the text. -/
def Begin (text : List Char) : Prop :=
  ∃ chars kind payload, Spells chars kind payload ∧ chars <+: text

/-- No lexeme that begins the text is longer than the given characters. -/
def Longest (chars text : List Char) : Prop :=
  ∀ others kind payload, Spells others kind payload → others <+: text →
    others.length ≤ chars.length

theorem Spells.ne_nil {chars : List Char} {kind : TokenKind} {payload : Payload}
    (h : Spells chars kind payload) : chars ≠ [] := by
  cases h with
  | whole hne => exact hne
  | symbol h => exact (standard_symbols_tail _ h).1
  | _ => simp

end Lexeme

namespace Reading

open Lexeme

/-- `Faulty text cause start length`: the fault of a text that no lexeme begins. It lies `length`
characters wide at the offset `start`: the first character, the first backslash in a string that makes no
escape, or a string that is never closed. -/
inductive Faulty : List Char → LexCause → (start length : Nat) → Prop where
  | unexpectedCharacter {c rest} (hc : c ≠ Quoted.double) :
      Faulty (c :: rest) (.unexpectedCharacter c) 0 1
  | unknownEscape {chars contents e rest} (h : StringReading.Encodes chars contents)
      (he : ∀ d, (e, d) ∉ StringReading.escapes) :
      Faulty (Quoted.double :: (chars ++ Quoted.backslash :: e :: rest)) (.unknownEscape e)
        (chars.length + 1) 2
  | unterminatedString {chars contents rest} (h : StringReading.Encodes chars contents)
      (hrest : rest = chars ∨ rest = chars ++ [Quoted.backslash]) :
      Faulty (Quoted.double :: rest) .unterminatedString 0 (rest.length + 1)

variable {c : Char} {chars rest tail : List Char} {kind : TokenKind} {payload : Payload}
  {cause : LexCause} {start length : Nat}

/-- What is read as a lexeme is spelled by its characters. -/
theorem spells_take {l : Lexeme} (h : ofText .standard c rest = lexeme l) :
    Spells ((c :: rest).take l.length) l.kind l.payload := by
  obtain ⟨chars, tail, rfl, hl, -⟩ :=
    Stream.Cuts.exists_split (Nat.ne_of_gt (sound_of_lexeme h).length_pos) (le_of_lexeme h)
  have halone := ofText_replace h hl Breaks.nil.continues
  rw [List.append_nil] at halone
  rw [hl, ← List.cons_append, List.take_left]
  exact spells_of_lexeme halone hl

/-- Where a lexeme begins, one is read. -/
theorem exists_lexeme_of_begin (h : Begin (c :: rest)) :
    ∃ l, ofText .standard c rest = lexeme l := by
  obtain ⟨chars, kind, payload, hspells, more, hmore⟩ := h
  obtain ⟨l, hl, -⟩ := hspells.read_longer hmore
  exact ⟨l, hl⟩

theorem begin_of_lexeme {l : Lexeme} (h : ofText .standard c rest = lexeme l) :
    Begin (c :: rest) :=
  ⟨_, _, _, spells_take h, List.take_prefix ..⟩

/-- **Longest lexeme.** A lexeme is read if and only if its characters spell it and no lexeme that begins
the text is longer. -/
theorem ofText_iff_longest :
    ofText .standard c (chars ++ tail) = lexeme ⟨kind, payload, (c :: chars).length⟩ ↔
      Spells (c :: chars) kind payload ∧ Longest (c :: chars) (c :: (chars ++ tail)) := by
  constructor
  · intro h
    have hspells := spells_take h
    rw [← List.cons_append, List.take_left] at hspells
    refine ⟨hspells, fun others kind' payload' hothers hprefix => ?_⟩
    obtain ⟨more, hmore⟩ := hprefix
    obtain ⟨l, hl, hle⟩ := hothers.read_longer hmore
    cases h.symm.trans hl
    exact hle
  · rintro ⟨hspells, hlongest⟩
    have happend : (c :: chars) ++ tail = c :: (chars ++ tail) := rfl
    obtain ⟨l, hl, hle⟩ := hspells.read_longer happend
    have htake := spells_take hl
    have hlength : l.length = (c :: chars).length := by
      refine Nat.le_antisymm ?_ hle
      have hmost := hlongest _ _ _ htake (List.take_prefix ..)
      rwa [List.length_take_of_le (le_of_lexeme hl)] at hmost
    -- The same characters are read alone as both lexemes.
    rw [hlength, ← List.cons_append, List.take_left] at htake
    cases (htake.read rfl).symm.trans (hspells.read rfl)
    rw [hl, ← hlength]

/-- **Faults.** A fault is read if and only if no lexeme begins the text, which begins with no white
space, and this is what is wrong with it. -/
theorem ofText_iff_faulty : ofText .standard c rest = fault cause start length ↔
    isSpace c = false ∧ ¬Begin (c :: rest) ∧ Faulty (c :: rest) cause start length := by
  constructor
  · intro h
    have hbegin : ¬Begin (c :: rest) := by
      intro hbegin
      obtain ⟨l, hl⟩ := exists_lexeme_of_begin hbegin
      cases h.symm.trans hl
    cases ofText_eq_iff.1 h with
    | unknownEscape hc hr =>
      obtain ⟨chars, contents, tail, rfl, hencodes, he, rfl⟩ :=
        StringReading.ofText_eq_unknownEscape_iff.1 hr
      subst hc
      exact ⟨rfl, hbegin, .unknownEscape hencodes he⟩
    | unterminated hc hr =>
      obtain ⟨chars, contents, hencodes, hrest⟩ := StringReading.ofText_eq_unterminated_iff.1 hr
      subst hc
      exact ⟨rfl, hbegin, .unterminatedString hencodes hrest⟩
    | unexpected hc => exact ⟨hc.1, hbegin, .unexpectedCharacter hc.2.2.2⟩
  · rintro ⟨hs, hbegin, hfaulty⟩
    cases hfaulty with
    | unexpectedCharacter hc =>
      have hno : ∀ l, ofText .standard c rest ≠ lexeme l := fun l hl => hbegin (begin_of_lexeme hl)
      cases hread : ofText .standard c rest with
      | space n =>
        cases ofText_eq_iff.1 hread with
        | space hc' => exact absurd (hs.symm.trans hc') Bool.false_ne_true
      | lexeme l => exact absurd hread (hno l)
      | unmatched => exact absurd hread ofText_standard_ne_unmatched
      | fault =>
        cases ofText_eq_iff.1 hread with
        | unexpected => rfl
        | unknownEscape hq => exact absurd hq hc
        | unterminated hq => exact absurd hq hc
    | unknownEscape hencodes he =>
      exact (Begins.unknownEscape rfl
        (StringReading.ofText_eq_unknownEscape_iff.2 ⟨_, _, _, rfl, hencodes, he, rfl⟩)).eq
    | unterminatedString hencodes hrest =>
      exact (Begins.unterminated rfl
        (StringReading.ofText_eq_unterminated_iff.2 ⟨_, _, hencodes, hrest⟩)).eq

end Reading

namespace Stream

open Lexeme

/-- `Segmented offset text s`: the text, which begins at the offset, is white space and longest lexemes,
whose tokens are those of `s`, up to its end or to where no lexeme begins. -/
inductive Segmented : Nat → List Char → Stream → Prop where
  | finish {offset blanks} (hblanks : ∀ c ∈ blanks, isSpace c = true) :
      Segmented offset blanks ⟨[Token.endOfInput (offset + blanks.length)], .exhausted⟩
  | token {offset blanks chars rest kind payload s} (hblanks : ∀ c ∈ blanks, isSpace c = true)
      (hspells : Spells chars kind payload) (hlongest : Longest chars (chars ++ rest))
      (hs : Segmented (offset + blanks.length + chars.length) rest s) :
      Segmented offset (blanks ++ (chars ++ rest))
        (cons ⟨kind, .ofLength (offset + blanks.length) chars.length, payload, chars⟩ s)
  | fault {offset blanks c rest cause start length} (hblanks : ∀ c ∈ blanks, isSpace c = true)
      (hc : isSpace c = false) (hbegin : ¬Begin (c :: rest))
      (hfaulty : Reading.Faulty (c :: rest) cause start length) :
      Segmented offset (blanks ++ c :: rest) ⟨[], .failed (offset + blanks.length)
        ⟨cause, .ofLength (offset + blanks.length + start) length⟩⟩

variable {offset : Nat} {blanks text : List Char} {s : Stream}

/-- White space in front of a text belongs to its first piece. -/
theorem Segmented.blank {more : List Char} (hmore : ∀ c ∈ more, isSpace c = true)
    (h : Segmented (offset + more.length) text s) : Segmented offset (more ++ text) s := by
  have all : ∀ {blanks : List Char}, (∀ c ∈ blanks, isSpace c = true) →
      ∀ c ∈ more ++ blanks, isSpace c = true := by
    intro blanks hblanks c hc
    exact (List.mem_append.1 hc).elim (hmore c) (hblanks c)
  have shift : ∀ blanks : List Char,
      offset + more.length + blanks.length = offset + (more ++ blanks).length := by
    intro blanks
    rw [List.length_append, Nat.add_assoc]
  cases h with
  | finish hblanks =>
    rw [shift]
    exact .finish (all hblanks)
  | token hblanks hspells hlongest hs =>
    rw [shift] at hs ⊢
    rw [← List.append_assoc]
    exact .token (all hblanks) hspells hlongest hs
  | fault hblanks hc hbegin hfaulty =>
    rw [shift, ← List.append_assoc]
    exact .fault (all hblanks) hc hbegin hfaulty

/-- What is cut into pieces, each found by reading, is cut into longest lexemes. -/
theorem Cuts.segmented (h : Cuts .standard offset text s) : Segmented offset text s := by
  induction h with
  | @done offset => exact @Segmented.finish offset [] nofun
  | @space offset c rest n s hr _ ih =>
    cases Reading.ofText_eq_iff.1 hr with
    | space =>
      obtain ⟨more, hmore⟩ := List.takeWhile_prefix (l := c :: rest) isSpace
      have hblanks : ∀ d ∈ (c :: rest).takeWhile isSpace, isSpace d = true :=
        fun _ => List.mem_takeWhile_imp
      generalize (c :: rest).takeWhile isSpace = blanks at hmore hblanks ih
      rw [← hmore, List.drop_left] at ih
      rw [← hmore]
      exact ih.blank hblanks
  | @lexeme offset c rest l s hr hl _ ih =>
    obtain ⟨chars, tail, rfl, hn, hdrop⟩ := exists_split hl (Reading.le_of_lexeme hr)
    obtain ⟨kind, payload, length⟩ := l
    obtain rfl : length = (c :: chars).length := hn
    obtain ⟨hspells, hlongest⟩ := Reading.ofText_iff_longest.1 hr
    rw [hdrop] at ih
    rw [← List.cons_append, List.take_left]
    exact @Segmented.token offset [] _ _ _ _ _ nofun hspells hlongest ih
  | stalled hr hl => exact absurd hl (Nat.ne_of_gt (Reading.sound_of_lexeme hr).length_pos)
  | @fault offset _ _ _ _ _ hr =>
    obtain ⟨hc, hbegin, hfaulty⟩ := Reading.ofText_iff_faulty.1 hr
    exact @Segmented.fault offset [] _ _ _ _ _ nofun hc hbegin hfaulty
  | unmatched hr => exact absurd hr Reading.ofText_standard_ne_unmatched

/-- White space in front of something else is cut off first. -/
theorem Cuts.blank (hblanks : ∀ c ∈ blanks, isSpace c = true)
    (htext : ∀ c ∈ text.head?, isSpace c = false)
    (h : Cuts .standard (offset + blanks.length) text s) : Cuts .standard offset (blanks ++ text) s := by
  cases blanks with
  | nil => exact h
  | cons c blanks =>
    refine space_append ?_ rfl h
    refine (Reading.Begins.space (hblanks c (List.mem_cons_self ..))).eq.trans ?_
    have hnone : text.takeWhile isSpace = [] := by
      cases text with
      | nil => rfl
      | cons d text =>
        have hd := htext d rfl
        exact List.takeWhile_cons_of_neg (by rw [hd]; exact Bool.false_ne_true)
    rw [← List.cons_append, List.takeWhile_append_of_pos hblanks, hnone, List.append_nil]

theorem Segmented.cuts (h : Segmented offset text s) : Cuts .standard offset text s := by
  induction h with
  | @finish offset blanks hblanks =>
    have hdone : Cuts .standard offset (blanks ++ [])
        ⟨[Token.endOfInput (offset + blanks.length)], .exhausted⟩ := .blank hblanks nofun .done
    rwa [List.append_nil] at hdone
  | @token offset blanks chars rest kind payload s hblanks hspells hlongest _ ih =>
    obtain ⟨c, chars, rfl⟩ := List.exists_cons_of_ne_nil hspells.ne_nil
    have hread := Reading.ofText_iff_longest.2 ⟨hspells, hlongest⟩
    refine .blank hblanks ?_ (.lexeme_append hread rfl ih)
    intro d hd
    cases hd
    exact Reading.not_isSpace_of_lexeme hread
  | fault hblanks hc hbegin hfaulty =>
    refine .blank hblanks ?_ (.fault (Reading.ofText_iff_faulty.2 ⟨hc, hbegin, hfaulty⟩))
    intro d hd
    cases hd
    exact hc

/-- The stream of a text is its only segmentation. -/
theorem ofText_iff_segmented : ofText .standard text = s ↔ Segmented 0 text s :=
  ⟨fun h => h ▸ (ofText_cuts .standard text).segmented,
    fun h => (ofText_cuts .standard text).unique h.cuts⟩

/-- The offset behind the last token that was read off characters. -/
def reached (offset : Nat) (s : Stream) : Nat :=
  (s.written.getLast?.map fun t => t.span.stop).getD offset

/-- What is left of a text, which begins at the offset, behind the last token and the white space that
follows it. -/
def leftover (offset : Nat) (text : List Char) (s : Stream) : List Char :=
  (text.drop (s.reached offset - offset)).dropWhile isSpace

theorem reached_cons {t : Token} (h : s.ending = .exhausted → s.tokens ≠ []) :
    (cons t s).reached offset = s.reached t.span.stop := by
  have hwritten : (cons t s).written = t :: s.written := by
    obtain ⟨tokens, ending⟩ := s
    cases ending with
    | exhausted => exact List.dropLast_cons_of_ne_nil (h rfl)
    | _ => rfl
  unfold reached
  rw [hwritten, List.getLast?_cons]
  cases s.written.getLast? <;> rfl

/-- Without tokens, all but white space is left of a text. -/
theorem leftover_of_written (h : s.written = []) : s.leftover offset text = text.dropWhile isSpace := by
  have hreached : s.reached offset = offset := by
    rw [reached, h]
    rfl
  rw [leftover, hreached, Nat.sub_self, List.drop_zero]

/-- What is left of a text lies behind its first token. -/
theorem leftover_cons {piece : List Char} {t : Token} (ht : t.span.stop = offset + piece.length)
    (h : s.ending = .exhausted → s.tokens ≠ []) (hle : t.span.stop ≤ s.reached t.span.stop) :
    (cons t s).leftover offset (piece ++ text) = s.leftover t.span.stop text := by
  have hdrop : s.reached t.span.stop - offset =
      piece.length + (s.reached t.span.stop - t.span.stop) := by omega
  rw [leftover, leftover, reached_cons h, hdrop, List.drop_length_add_append]

/-- Tokens end with the text, or where something is left of it that no lexeme begins. -/
theorem Segmented.leftover_cases (h : Segmented offset text s) : offset ≤ s.reached offset ∧
    ((s.leftover offset text = [] ∧ s.ending = .exhausted ∧
        s.tokens.getLast? = some (Token.endOfInput (offset + text.length))) ∨
      ∃ begins e, s.leftover offset text ≠ [] ∧ ¬Begin (s.leftover offset text) ∧
        begins + (s.leftover offset text).length = offset + text.length ∧
        s.ending = .failed begins e) := by
  induction h with
  | finish hblanks =>
    refine ⟨Nat.le_refl _, .inl ⟨?_, rfl, rfl⟩⟩
    rw [leftover_of_written rfl]
    exact List.dropWhile_eq_nil_iff.2 hblanks
  | @token offset blanks chars rest kind payload s hblanks hspells hlongest hs ih =>
    rw [← List.append_assoc]
    generalize ht :
      (⟨kind, .ofLength (offset + blanks.length) chars.length, payload, chars⟩ : Token) = t
    have hstop : t.span.stop = offset + blanks.length + chars.length := by
      rw [← ht]
      rfl
    have hpiece : t.span.stop = offset + (blanks ++ chars).length := by
      rw [hstop, List.length_append, Nat.add_assoc]
    have hlength : t.span.stop + rest.length = offset + (blanks ++ chars ++ rest).length := by
      rw [hpiece, Nat.add_assoc, ← List.length_append]
    rw [← hstop, hlength] at ih
    obtain ⟨hle, hend⟩ := ih
    have hne : s.ending = .exhausted → s.tokens ≠ [] := by
      intro hs htokens
      rcases hend with ⟨-, -, hlast⟩ | ⟨begins, e, -, -, -, hfailed⟩
      · rw [htokens] at hlast
        cases hlast
      · cases hs.symm.trans hfailed
    rw [leftover_cons hpiece hne hle, reached_cons hne]
    refine ⟨Nat.le_trans (by omega) hle, hend.imp ?_ id⟩
    rintro ⟨hleft, hs, hlast⟩
    refine ⟨hleft, hs, ?_⟩
    rw [cons, List.getLast?_cons, hlast]
    rfl
  | @fault offset blanks c rest cause start length hblanks hc hbegin hfaulty =>
    have hleft : (blanks ++ c :: rest).dropWhile isSpace = c :: rest := by
      rw [List.dropWhile_append_of_pos hblanks,
        List.dropWhile_cons_of_neg (by rw [hc]; exact Bool.false_ne_true)]
    refine ⟨Nat.le_refl _, .inr ?_⟩
    rw [leftover_of_written rfl, hleft]
    refine ⟨_, _, List.cons_ne_nil _ _, hbegin, ?_, rfl⟩
    rw [List.length_append, Nat.add_assoc]

theorem written_subset (s : Stream) : s.written ⊆ s.tokens := by
  unfold written
  split
  · exact List.dropLast_subset _
  · exact List.Subset.refl _

/-- No end of input was read off characters. -/
theorem Proper.kind_ne_of_written (h : s.Proper) : ∀ t ∈ s.written, t.kind ≠ .endOfInput := by
  intro t ht
  by_cases hs : s.ending = .exhausted
  · obtain ⟨ts, eof, htokens, -⟩ := h.ends hs
    rw [written, hs, htokens] at ht
    dsimp only at ht
    rw [List.dropLast_concat] at ht
    exact h.kind_ne htokens (List.cons_ne_nil _ _) t ht
  · have hwritten : s.written = s.tokens := by
      unfold written
      split
      · next heq => exact absurd heq hs
      · rfl
    intro hk
    rw [hwritten] at ht
    obtain ⟨before, after, htokens⟩ := List.append_of_mem ht
    exact hs (h.ended before t after htokens hk).2

/-- **Maximal munch.** The stream of a text is its only segmentation into white space and longest
lexemes. Its tokens stand one after the other and have characters. Either all of the text is cut into
tokens, with the end of input at its end; or, exactly when no lexeme begins at the first character behind
the last token that is no white space, reading stops at this character with the fault that it meets. -/
theorem ofText_maximal_munch (text : List Char) : ∃ s, ofText .standard text = s ∧
    (∀ s', Segmented 0 text s' ↔ s' = s) ∧
    s.tokens.Pairwise (fun t u => t.span.stop ≤ u.span.start) ∧
    (∀ t ∈ s.written, t.span.start < t.span.stop) ∧
    ((∃ begins e, s.ending = .failed begins e) ↔
      s.leftover 0 text ≠ [] ∧ ¬Begin (s.leftover 0 text)) ∧
    ((s = ⟨s.written ++ [Token.endOfInput text.length], .exhausted⟩ ∧ s.leftover 0 text = []) ∨
      ∃ begins e, s = ⟨s.written, .failed begins e⟩ ∧ s.position = begins ∧
        begins + (s.leftover 0 text).length = text.length) := by
  have hcuts := ofText_cuts .standard text
  refine ⟨_, rfl, fun s' => ofText_iff_segmented.symm.trans eq_comm, hcuts.legible.ordered,
    fun t ht => ?_, ?_⟩
  · have hkind := hcuts.proper.kind_ne_of_written t ht
    exact hcuts.start_lt_stop t (written_subset _ ht) hkind
  obtain ⟨-, hend⟩ := hcuts.segmented.leftover_cases
  rw [Nat.zero_add] at hend
  generalize ofText .standard text = s at hend
  obtain ⟨tokens, ending⟩ := s
  rcases hend with ⟨hleft, hs, hlast⟩ | ⟨begins, e, hne, hbegin, hlength, hs⟩
  · obtain rfl : ending = .exhausted := hs
    refine ⟨⟨nofun, fun h => absurd hleft h.1⟩, .inl ⟨?_, hleft⟩⟩
    have htokens := List.dropLast_append_getLast? _ hlast
    exact congrArg (Stream.mk · Ending.exhausted) htokens.symm
  · obtain rfl : ending = .failed begins e := hs
    exact ⟨⟨fun _ => ⟨hne, hbegin⟩, fun _ => ⟨_, _, rfl⟩⟩, .inr ⟨begins, e, rfl, rfl, hlength⟩⟩

end Stream

end Curly
