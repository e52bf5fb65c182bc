import Curly.Proofs.Token.Streams

/-!
# Texts that are split between lines

What stands in front of an end of line is cut into the same tokens whatever comes after it, and what
stands behind is cut as if it stood alone. So the tokens of a text are those of its lines. The same holds
of every character that no lexeme goes on with.

## Main definitions

* `Lexeme.Separates`: no lexeme goes on with a character.
* `Stream.shift`: a stream some characters further on.

## Main statements

* `Reading.ofText_append`: a character that separates ends what is read in front of it.
* `Stream.Cuts.append`: a text is cut alike in front of such a character.
* `Stream.ofText_append`: the stream of a text that is split at an end of line.
* `Stream.ofText_seam`: its tokens and its fault, from those of the two parts.
-/

namespace Curly

/-- What a character does not belong to ends in front of it. -/
theorem takeWhile_append_cons (text more : List Char) {p : Char → Bool} {e : Char}
    (he : p e = false) :
    (text ++ e :: more).takeWhile p = text.takeWhile p := by
  rw [List.takeWhile_append, List.takeWhile_cons_of_neg (by rw [he]; exact Bool.false_ne_true),
    List.append_nil]
  split
  · next h => exact ((List.takeWhile_prefix p).eq_of_length h).symm
  · rfl

theorem dropWhile_append_cons (text more : List Char) {p : Char → Bool} {e : Char}
    (he : p e = false) :
    (text ++ e :: more).dropWhile p = text.dropWhile p ++ e :: more := by
  rw [List.dropWhile_append]
  split
  · next h =>
    rw [List.isEmpty_iff.1 h, List.dropWhile_cons_of_neg (by rw [he]; exact Bool.false_ne_true)]
    rfl
  · rfl

variable {text more : List Char} {e : Char}

namespace Lexeme

/-- Neither white space nor a lexeme goes on with the character. -/
structure Separates (e : Char) : Prop where
  isSpace : isSpace e = false
  isWordPart : isWordPart e = false
  ne_point : e ≠ '.'
  ne_equal : e ≠ '='

theorem separates_newline : Separates '\n' := ⟨rfl, rfl, by decide, by decide⟩

theorem separates_endOfLine (he : e = '\n' ∨ e = ';') : Separates e := by
  rcases he with rfl | rfl
  · exact separates_newline
  · exact ⟨rfl, rfl, by decide, by decide⟩

theorem isWordPart_of_isDigit {c : Char} (h : c.isDigit = true) : isWordPart c = true := by
  simp only [isWordPart, Char.isAlphanum, h, Bool.or_true, Bool.true_or]

theorem Separates.isDigit (he : Separates e) : e.isDigit = false :=
  Bool.eq_false_iff.2 fun h =>
    Bool.false_ne_true (he.isWordPart.symm.trans (isWordPart_of_isDigit h))

theorem number_append (he : Separates e) (text more : List Char) :
    number (text ++ e :: more) = number text := by
  have hfraction : ∀ rest, fractionOf (rest ++ e :: more) = fractionOf rest := by
    intro rest
    cases rest with
    | nil =>
      rw [List.nil_append, fractionOf, fractionOf]
      · exact fun _ h => nomatch h
      · exact fun _ h => he.ne_point (List.cons.inj h).1
    | cons c rest =>
      by_cases hc : c = '.'
      · subst hc
        exact takeWhile_append_cons rest more he.isDigit
      · rw [fractionOf, fractionOf]
        · exact fun _ h => hc (List.cons.inj h).1
        · exact fun _ h => hc (List.cons.inj h).1
  rw [number, number, takeWhile_append_cons text more he.isDigit,
    dropWhile_append_cons text more he.isDigit, hfraction]

theorem word_append (he : Separates e) (table : Table) (text more : List Char) :
    word table (text ++ e :: more) = word table text := by
  rw [word, word, takeWhile_append_cons text more he.isWordPart]

/-- A list that does not hold a character stands in front of it or not at all. -/
theorem isPrefixOf_append_cons {chars : List Char} (he : e ∉ chars) :
    chars.isPrefixOf (text ++ e :: more) = chars.isPrefixOf text := by
  induction chars generalizing text with
  | nil => rw [List.isPrefixOf_nil_left, List.isPrefixOf_nil_left]
  | cons c chars ih =>
    rw [List.mem_cons, not_or] at he
    cases text with
    | nil => simp [List.isPrefixOf, Ne.symm he.1]
    | cons d text =>
      rw [List.cons_append, List.isPrefixOf_cons_cons, List.isPrefixOf_cons_cons, ih he.2]

/-- The symbols of the language go on with nothing but equals signs. -/
theorem standard_symbols_tail :
    ∀ p ∈ Table.standard.symbols, p.1.toList ≠ [] ∧ ∀ c ∈ p.1.toList.tail, c = '=' := by
  simp [Table.standard]

theorem symbol?_append (he : Separates e) (c : Char) (text more : List Char) :
    symbol? .standard (c :: (text ++ e :: more)) = symbol? .standard (c :: text) := by
  refine symbol?_congr fun p hp => ?_
  obtain ⟨hne, htail⟩ := standard_symbols_tail p hp
  obtain ⟨d, chars, hchars⟩ := List.exists_cons_of_ne_nil hne
  rw [hchars, List.tail_cons] at htail
  rw [hchars, ← List.isPrefixOf_iff_prefix, ← List.isPrefixOf_iff_prefix, List.isPrefixOf_cons_cons,
    List.isPrefixOf_cons_cons, isPrefixOf_append_cons fun h => he.ne_equal (htail e h)]

end Lexeme

/-- A string that is closed does not depend on what comes after it. -/
theorem StringReading.ofText_append {contents : List Char} {n : Nat}
    (h : ofText text = closed contents n) (more : List Char) :
    ofText (text ++ more) = closed contents n := by
  induction text using ofText.induct generalizing contents n with
  | case1 => cases h
  | case2 =>
    cases h
    cases more with
    | nil => rfl
    | cons => rw [List.cons_append, List.nil_append, ofText, if_pos rfl]
  | case3 c hc =>
    rw [ofText, if_neg hc] at h
    cases h
  | case4 d rest =>
    rw [ofText, if_pos rfl] at h
    rw [List.cons_append, List.cons_append, ofText, if_pos rfl, h]
  | case5 d rest e he hne ih =>
    rw [ofText, if_neg hne, if_pos rfl, he] at h
    obtain ⟨_, m, hrest, rfl, rfl⟩ := cons_eq_closed h
    rw [List.cons_append, List.cons_append, ofText, if_neg hne, if_pos rfl, he]
    dsimp only
    rw [ih hrest, cons]
  | case6 d rest he hne =>
    rw [ofText, if_neg hne, if_pos rfl, he] at h
    cases h
  | case7 c d rest hc hc' ih =>
    rw [ofText, if_neg hc, if_neg hc'] at h
    obtain ⟨_, m, hrest, rfl, rfl⟩ := cons_eq_closed h
    rw [List.cons_append, List.cons_append, ofText, if_neg hc, if_neg hc', ← List.cons_append,
      ih hrest, cons]

namespace Reading

variable {c : Char} {rest : List Char}

/-- A character that separates ends what is read in front of it, unless that has a fault. -/
theorem ofText_append (he : Lexeme.Separates e) {r : Reading} (h : ofText .standard c rest = r)
    (hr : ∀ cause offset length, r ≠ fault cause offset length) (more : List Char) :
    ofText .standard c (rest ++ e :: more) = r := by
  refine ofText_eq_iff.2 ?_
  cases ofText_eq_iff.1 h with
  | space hc =>
    rw [← takeWhile_append_cons (c :: rest) more he.isSpace]
    exact .space hc
  | number hs hc =>
    rw [← Lexeme.number_append he (c :: rest) more]
    exact .number hs hc
  | word hs hd hc =>
    rw [← Lexeme.word_append he .standard (c :: rest) more]
    exact .word hs hd hc
  | string hc hs => exact .string hc (StringReading.ofText_append hs _)
  | symbol hc hs => exact .symbol hc ((Lexeme.symbol?_append he c rest more).trans hs)
  | unmatched _ _ ht => exact absurd ht (by decide)
  | _ => exact absurd rfl (hr _ _ _)

/-- An end of line is a token of its own. -/
theorem ofText_endOfLine (he : e = '\n' ∨ e = ';') (more : List Char) :
    ofText .standard e more = lexeme ⟨.endOfLine, .none, 1⟩ := by
  rcases he with rfl | rfl
  · rfl
  · rfl

end Reading

/-- The token, `n` characters further on. -/
def Token.shift (t : Token) (n : Nat) : Token := { t with span := t.span.shift n }

/-- The ending, `n` characters further on. -/
def Ending.shift (n : Nat) : Ending → Ending
  | exhausted => exhausted
  | failed offset ⟨cause, span⟩ => failed (offset + n) ⟨cause, span.shift n⟩
  | unmatched offset => unmatched (offset + n)
  | stalled token => stalled (token.shift n)

namespace Stream

/-- The stream, `n` characters further on. -/
def shift (s : Stream) (n : Nat) : Stream := ⟨s.tokens.map (·.shift n), s.ending.shift n⟩

theorem shift_cons (t : Token) (s : Stream) (n : Nat) :
    (cons t s).shift n = cons (t.shift n) (s.shift n) := rfl

variable {table : Table} {offset : Nat} {s : Stream}

theorem ofLength_shift (i k n : Nat) : (Span.ofLength i k).shift n = .ofLength (i + n) k := by
  ext
  · rfl
  · rw [Span.stop_shift, Span.stop_ofLength, Span.stop_ofLength, Nat.add_right_comm]

/-- How a text is cut does not depend on where it begins. -/
theorem Cuts.shift (h : Cuts table offset text s) (n : Nat) :
    Cuts table (offset + n) text (s.shift n) := by
  induction h with
  | done =>
    have heof : ∀ i, (Token.endOfInput i).shift n = .endOfInput (i + n) := fun i => by
      rw [Token.shift, Token.endOfInput, ofLength_shift]
      rfl
    rw [Stream.shift, List.map_singleton, heof]
    exact .done
  | space h _ ih =>
    rw [Nat.add_right_comm] at ih
    exact .space h ih
  | lexeme h hl _ ih =>
    rw [Nat.add_right_comm] at ih
    rw [shift_cons, Token.shift, ofLength_shift]
    exact .lexeme h hl ih
  | stalled h hl =>
    rw [Stream.shift, Ending.shift, Token.shift, ofLength_shift]
    exact .stalled h hl
  | fault h =>
    rw [Stream.shift, Ending.shift, ofLength_shift, Nat.add_right_comm]
    exact .fault h
  | unmatched h => exact .unmatched h

/-- A text without faults in front of a character that separates is cut as if it stood alone. -/
theorem Cuts.append {s' : Stream} (he : Lexeme.Separates e)
    (h : Cuts .standard offset text s) (hs : s.ending = .exhausted)
    (h' : Cuts .standard (offset + text.length) (e :: more) s') :
    Cuts .standard offset (text ++ e :: more)
      ⟨s.tokens.dropLast ++ s'.tokens, s'.ending⟩ := by
  -- A piece that is cut off in front leaves the seam where it is in the whole text.
  have drop : ∀ {offset n : Nat} {text : List Char}, n ≤ text.length →
      Cuts .standard (offset + text.length) (e :: more) s' →
      Cuts .standard (offset + n + (text.drop n).length) (e :: more) s' := by
    intro offset n text hn h'
    rwa [List.length_drop, Nat.add_assoc, Nat.add_sub_cancel' hn]
  induction h with
  | done => exact h'
  | @space offset c rest n s hread _ ih =>
    have hn := (Reading.le_of_space hread).2
    have hdrop : (c :: (rest ++ e :: more)).drop n = (c :: rest).drop n ++ e :: more := by
      rw [← List.cons_append, List.drop_append_of_le_length hn]
    have hcut := ih hs (drop hn h')
    rw [← hdrop] at hcut
    exact .space (Reading.ofText_append he hread (by simp) more) hcut
  | @lexeme offset c rest l s hread hl hcuts ih =>
    have hn := Reading.le_of_lexeme hread
    have hdrop : (c :: (rest ++ e :: more)).drop l.length =
        (c :: rest).drop l.length ++ e :: more := by
      rw [← List.cons_append, List.drop_append_of_le_length hn]
    have htake : (c :: (rest ++ e :: more)).take l.length = (c :: rest).take l.length := by
      rw [← List.cons_append, List.take_append_of_le_length hn]
    obtain ⟨ts, eof, hts, -⟩ := hcuts.proper.ends hs
    have hcut := ih hs (drop hn h')
    rw [hts, List.dropLast_concat, ← hdrop] at hcut
    rw [cons, hts, ← List.cons_append, List.dropLast_concat, ← htake]
    exact .lexeme (Reading.ofText_append he hread (by simp) more) hl hcut
  | _ => cases hs

/-- **Lines are cut one by one**: the tokens of a text that is split at an end of line are those of the
part in front of it, the end of line, and those of the part behind it, that much further on. -/
theorem ofText_append (he : e = '\n' ∨ e = ';') (h : (ofText .standard text).ending = .exhausted) :
    ofText .standard (text ++ e :: more) =
      ⟨(ofText .standard text).tokens.dropLast ++
          ⟨.endOfLine, .ofLength text.length 1, .none, [e]⟩ ::
            ((ofText .standard more).shift (text.length + 1)).tokens,
        ((ofText .standard more).shift (text.length + 1)).ending⟩ := by
  have hmore := (ofText_cuts .standard more).shift (text.length + 1)
  rw [Nat.zero_add] at hmore
  have hline : Cuts .standard (0 + text.length) (e :: more)
      (cons ⟨.endOfLine, .ofLength text.length 1, .none, [e]⟩
        ((ofText .standard more).shift (text.length + 1))) := by
    rw [Nat.zero_add]
    exact .lexeme (Reading.ofText_endOfLine he more) Nat.one_ne_zero hmore
  have htext := (ofText_cuts .standard text).append (Lexeme.separates_endOfLine he) h hline
  exact (ofText_cuts _ _).unique htext

/-- Tokens of a text without faults are completed by the end of input, where the text ends. -/
theorem Cuts.exists_endOfInput (h : Cuts table offset text s) (hs : s.ending = .exhausted) :
    ∃ ts, s = ⟨ts ++ [Token.endOfInput (offset + text.length)], .exhausted⟩ := by
  induction h with
  | done => exact ⟨[], rfl⟩
  | space hread _ ih =>
    obtain ⟨ts, hts⟩ := ih hs
    rw [stop_drop (Reading.le_of_space hread).2] at hts
    exact ⟨ts, hts⟩
  | lexeme hread _ _ ih =>
    obtain ⟨ts, hts⟩ := ih hs
    rw [stop_drop (Reading.le_of_lexeme hread)] at hts
    exact ⟨_ :: ts, congrArg (cons _) hts⟩
  | _ => cases hs

/-- **Cutting is compositional at an end of line.** A text without faults, an end of line and any other
text are cut into the tokens of the first text without its end of input, the end of line, and the tokens
of the second text, that much further on. If the second text has a fault then so has the whole, behind
these tokens: the same one, that much further on. Otherwise the whole has none. -/
theorem ofText_seam (he : e = '\n' ∨ e = ';') (h : (ofText .standard text).ending = .exhausted)
    (more : List Char) :
    ∃ ts, ofText .standard text = ⟨ts ++ [Token.endOfInput text.length], .exhausted⟩ ∧
      (ofText .standard (text ++ e :: more)).tokens =
        ts ++ ⟨.endOfLine, .ofLength text.length 1, .none, [e]⟩ ::
          (ofText .standard more).tokens.map (·.shift (text.length + 1)) ∧
      ((ofText .standard (text ++ e :: more)).ending = .exhausted ↔
        (ofText .standard more).ending = .exhausted) ∧
      ∀ begins cause span, (ofText .standard more).ending = .failed begins ⟨cause, span⟩ →
        (ofText .standard (text ++ e :: more)).ending =
          .failed (begins + (text.length + 1)) ⟨cause, span.shift (text.length + 1)⟩ := by
  obtain ⟨ts, hts⟩ := (ofText_cuts .standard text).exists_endOfInput h
  rw [Nat.zero_add] at hts
  refine ⟨ts, hts, ?_, ?_, fun begins cause span hmore => ?_⟩
  · rw [ofText_append he h, hts, List.dropLast_concat]
    rfl
  · rw [ofText_append he h]
    constructor
    · intro hwhole
      obtain hexhausted | ⟨begins, error, hfailed, -⟩ := (ofText_cuts .standard more).ending_cases
      · exact hexhausted
      · rw [shift, hfailed] at hwhole
        cases hwhole
    · intro hmore
      rw [shift, hmore]
      rfl
  · rw [ofText_append he h, shift, hmore]
    rfl

/-- A string may hold ends of line and is not split there, and a string behind the text that is never
closed is found at its place in the whole. -/
theorem ofText_seam_strings :
    (ofText .standard ['"', ';', '"']).ending = .exhausted ∧
      (ofText .standard (['"', ';', '"'] ++ ';' :: ['x', '"', '\n'])).tokens =
        [⟨.string, .ofLength 0 3, .string ";", ['"', ';', '"']⟩,
          ⟨.endOfLine, .ofLength 3 1, .none, [';']⟩,
          ⟨.identifier, .ofLength 4 1, .name "x", ['x']⟩] ∧
      (ofText .standard (['"', ';', '"'] ++ ';' :: ['x', '"', '\n'])).ending =
        .failed 5 ⟨.unterminatedString, .ofLength 5 2⟩ := by
  have h : (ofText .standard ['"', ';', '"']).ending = .exhausted := by decide
  obtain ⟨ts, hts, htokens, -, hfails⟩ := ofText_seam (.inr rfl) h ['x', '"', '\n']
  have hfirst : [⟨.string, .ofLength 0 3, .string ";", ['"', ';', '"']⟩] = ts :=
    List.append_cancel_right (congrArg tokens hts)
  refine ⟨h, ?_, hfails 1 .unterminatedString (.ofLength 1 2) (by decide)⟩
  rw [htokens, ← hfirst]
  decide

end Stream

end Curly
