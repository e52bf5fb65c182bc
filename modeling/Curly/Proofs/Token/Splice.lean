import Curly.Proofs.Token.Seam

/-!
# Texts that are cut off and continued

The tokens in front of the end of a token do not depend on what comes behind it, as long as that does
not go on with the token. So a text may be cut off behind any of its tokens and continued differently,
and what stands behind the beginning of a token is cut as if it stood alone.

## Main definitions

* `Breaks`: no lexeme goes on with the beginning of the text.

## Main statements

* `Reading.ofText_replace`: a lexeme is read alike in front of different continuations.
* `Stream.Cuts.drop`: the stream of a text from the beginning of one of its tokens on.
* `Stream.Cuts.splice`: the stream of a text that is cut off behind one of its tokens and continued.
* `Stream.Cuts.front`: the stream of a text up to the beginning of one of its tokens.
* `Stream.Cuts.slice`: the stream of a part of a text that begins and ends with tokens.
-/

namespace Curly

section

variable {α : Type} {p : α → Bool} {xs ys zs : List α}

/-- What satisfies a property up to some place is the same whatever stands behind it. -/
theorem takeWhile_append_eq_left (h : ((xs ++ ys).takeWhile p).length = xs.length) :
    (xs ++ ys).takeWhile p = xs :=
  (List.prefix_of_prefix_length_le (List.takeWhile_prefix p) (List.prefix_append xs ys)
    (Nat.le_of_eq h)).eq_of_length h

theorem all_of_takeWhile_length (h : ((xs ++ ys).takeWhile p).length = xs.length) :
    ∀ x ∈ xs, p x = true := by
  have := List.all_takeWhile (p := p) (l := xs ++ ys)
  rwa [takeWhile_append_eq_left h, List.all_eq_true] at this

theorem takeWhile_replace (h : ((xs ++ ys).takeWhile p).length = xs.length)
    (hz : ∀ z ∈ zs.head?, p z = false) : (xs ++ zs).takeWhile p = xs := by
  rw [List.takeWhile_append_of_pos (all_of_takeWhile_length h)]
  cases zs with
  | nil => rw [List.takeWhile_nil, List.append_nil]
  | cons z zs =>
    have hz : ¬p z = true := Bool.eq_false_iff.1 (hz z rfl)
    rw [List.takeWhile_cons_of_neg hz, List.append_nil]

theorem dropWhile_replace (h : ((xs ++ ys).takeWhile p).length = xs.length)
    (hz : ∀ z ∈ zs.head?, p z = false) : (xs ++ zs).dropWhile p = zs := by
  have hsplit := List.takeWhile_append_dropWhile (p := p) (l := xs ++ zs)
  rw [takeWhile_replace h hz] at hsplit
  exact List.append_cancel_left hsplit

/-- What stands behind the elements with a property lacks it. -/
theorem not_of_takeWhile_length (h : ((xs ++ ys).takeWhile p).length = xs.length) {y : α}
    (hy : y ∈ ys.head?) : p y = false := by
  obtain ⟨ys, rfl⟩ := List.head?_eq_some_iff.1 hy
  rw [List.takeWhile_append_of_pos (all_of_takeWhile_length h), List.length_append] at h
  refine Bool.eq_false_iff.2 fun hp => ?_
  rw [List.takeWhile_cons_of_pos hp, List.length_cons] at h
  omega

end

/-- No lexeme goes on with the beginning of the text. -/
def Breaks (text : List Char) : Prop :=
  ∀ c ∈ text.head?, Lexeme.isWordPart c = false ∧ c ≠ '.' ∧ c ≠ '='

/-- The text `more` may stand in the place of `tail`: it begins with something that no lexeme goes on
with, or with the same character, which is no point. -/
def Continues (tail more : List Char) : Prop :=
  ∀ c ∈ more.head?, Breaks [c] ∨ (c ∈ tail.head? ∧ c ≠ '.')

theorem Breaks.continues {tail more : List Char} (h : Breaks more) : Continues tail more := by
  intro c hc
  refine .inl fun d hd => ?_
  cases hd
  exact h c hc

theorem Breaks.nil : Breaks [] := nofun

namespace Continues

variable {tail more : List Char} {xs : List Char} {p : Char → Bool}

/-- A continuation does not go on with a word, nor with anything that only word parts make. -/
theorem not_of_part (h : Continues tail more)
    (hp : ∀ c, p c = true → Lexeme.isWordPart c = true)
    (hxs : ((xs ++ tail).takeWhile p).length = xs.length) : ∀ c ∈ more.head?, p c = false := by
  intro c hc
  rcases h c hc with hbreak | ⟨htail, -⟩
  · refine Bool.eq_false_iff.2 fun hpc => ?_
    have := (hbreak c rfl).1
    rw [hp c hpc] at this
    cases this
  · exact not_of_takeWhile_length hxs htail

theorem ne_point (h : Continues tail more) : ∀ c ∈ more.head?, c ≠ '.' := by
  intro c hc
  rcases h c hc with hbreak | ⟨-, hne⟩
  · exact (hbreak c rfl).2.1
  · exact hne

end Continues

namespace Lexeme

variable {chars tail more : List Char}

theorem word_replace {table : Table} (h : Continues tail more)
    (hlength : (word table (chars ++ tail)).length = chars.length) :
    word table (chars ++ more) = word table (chars ++ tail) := by
  have hword : ((chars ++ tail).takeWhile isWordPart).length = chars.length := by
    unfold word at hlength
    dsimp only at hlength
    split at hlength <;> exact hlength
  unfold word
  rw [takeWhile_append_eq_left hword, takeWhile_replace hword (h.not_of_part (fun _ hc => hc) hword)]

theorem fractionOf_eq_nil (h : ∀ c ∈ more.head?, c ≠ '.') : fractionOf more = [] := by
  unfold fractionOf
  split
  · exact absurd rfl (h '.' rfl)
  · rfl

/-- A number with a fraction is made of digits, a point and the digits of the fraction. -/
theorem number_fraction (hfraction : fractionOf ((chars ++ tail).dropWhile Char.isDigit) ≠ [])
    (hlength : (number (chars ++ tail)).length = chars.length) :
    ∃ whole digits, chars = whole ++ '.' :: digits ∧
      ((chars ++ tail).takeWhile Char.isDigit).length = whole.length ∧
      ((digits ++ tail).takeWhile Char.isDigit).length = digits.length := by
  obtain ⟨whole, hwhole⟩ : ∃ whole, whole = (chars ++ tail).takeWhile Char.isDigit := ⟨_, rfl⟩
  obtain ⟨rest, hrest⟩ : ∃ rest, (chars ++ tail).dropWhile Char.isDigit = '.' :: rest := by
    unfold fractionOf at hfraction
    split at hfraction
    · next rest heq => exact ⟨rest, heq⟩
    · exact absurd rfl hfraction
  rw [hrest, fractionOf] at hfraction
  have hsplit : chars ++ tail = whole ++ '.' :: rest := by
    rw [hwhole, ← hrest, List.takeWhile_append_dropWhile]
  have hlength : whole.length + 1 + (rest.takeWhile Char.isDigit).length = chars.length := by
    unfold number at hlength
    rw [hrest, fractionOf, if_neg (by simpa using hfraction), ← hwhole] at hlength
    exact hlength
  obtain ⟨digits, rfl⟩ : whole ++ ['.'] <+: chars := by
    have hpoint : whole ++ ['.'] <+: chars ++ tail := by
      rw [hsplit]
      exact ⟨rest, List.append_assoc ..⟩
    refine List.prefix_of_prefix_length_le hpoint (List.prefix_append chars tail) ?_
    rw [List.length_append, List.length_singleton]
    omega
  rw [List.append_assoc, List.append_assoc] at hsplit
  obtain rfl : digits ++ tail = rest := (List.cons.inj (List.append_cancel_left hsplit)).2
  refine ⟨whole, digits, List.append_assoc .., by rw [← hwhole], ?_⟩
  simp only [List.length_append, List.length_singleton] at hlength
  omega

theorem number_replace (h : Continues tail more)
    (hlength : (number (chars ++ tail)).length = chars.length) :
    number (chars ++ more) = number (chars ++ tail) := by
  have hparts : ∀ c : Char, c.isDigit = true → isWordPart c = true :=
    fun _ => isWordPart_of_isDigit
  -- Either the digits make up the whole lexeme, or a point and more digits follow them in it.
  by_cases hfraction : fractionOf ((chars ++ tail).dropWhile Char.isDigit) = []
  · have hwhole : ((chars ++ tail).takeWhile Char.isDigit).length = chars.length := by
      unfold number at hlength
      rw [hfraction] at hlength
      exact hlength
    have hmore := h.not_of_part hparts hwhole
    unfold number
    rw [hfraction, dropWhile_replace hwhole hmore, fractionOf_eq_nil h.ne_point,
      takeWhile_append_eq_left hwhole, takeWhile_replace hwhole hmore]
  · obtain ⟨whole, digits, rfl, hwhole, hdigits⟩ := number_fraction hfraction hlength
    have hpoint : ∀ us : List Char, ∀ c ∈ ('.' :: us).head?, c.isDigit = false := by
      intro us c hc
      cases hc
      rfl
    rw [List.append_assoc, List.cons_append] at hwhole
    unfold number
    rw [List.append_assoc, List.append_assoc, List.cons_append, List.cons_append,
      takeWhile_replace hwhole (hpoint (digits ++ more)), takeWhile_append_eq_left hwhole,
      dropWhile_replace hwhole (hpoint (digits ++ more)), dropWhile_replace hwhole (hpoint _),
      fractionOf, fractionOf, takeWhile_append_eq_left hdigits,
      takeWhile_replace hdigits (h.not_of_part hparts hdigits)]

/-- Symbols have at most two characters, of which the second is an equals sign. -/
theorem standard_symbols_shape : ∀ p ∈ Table.standard.symbols,
    (∃ c, p.1.toList = [c]) ∨ ∃ c, p.1.toList = [c, '='] := by
  intro p hp
  have : p.1.toList.length = 1 ∨ p.1.toList.tail = ['='] := by
    revert p
    decide
  rcases this with h | h
  · exact .inl (List.length_eq_one_iff.1 h)
  · cases hchars : p.1.toList with
    | nil =>
      rw [hchars] at h
      cases h
    | cons c cs =>
      rw [hchars] at h
      exact .inr ⟨c, by rw [show cs = ['='] from h]⟩

/-- A symbol that goes on behind one character does so with an equals sign. -/
theorem symbol_behind {c : Char} {p : String × TokenKind} (hp : p ∈ Table.standard.symbols)
    {text : List Char} ( hprefix : p.1.toList <+: c :: text) (hlength : 1 < p.1.toList.length) :
    '=' ∈ text.head? ∧ p.1.toList = [c, '='] := by
  rcases standard_symbols_shape p hp with ⟨d, hd⟩ | ⟨d, hd⟩
  · rw [hd] at hlength
    exact absurd hlength (Nat.lt_irrefl 1)
  · rw [hd] at hprefix ⊢
    obtain ⟨rest, hrest⟩ := hprefix
    obtain ⟨rfl, htext⟩ := List.cons.inj hrest
    rw [← show '=' :: rest = text from htext]
    exact ⟨rfl, rfl⟩

/-- A symbol that is found is as long as any that a continuation begins with. -/
theorem length_le_of_continues {kind : TokenKind} (h : Continues tail more)
    (hfound : symbol? .standard (chars ++ tail) = some (chars, kind)) {p : String × TokenKind}
    (hp : p ∈ Table.standard.symbols) ( hprefix : p.1.toList <+: chars ++ more) :
    p.1.toList.length ≤ chars.length := by
  obtain ⟨s, hs, hchars, -⟩ := symbol?_cases hfound
  have hshape := standard_symbols_shape _ hs
  dsimp only at hshape
  rw [hchars] at hshape
  rcases hshape with ⟨c, rfl⟩ | ⟨c, rfl⟩
  · refine Nat.le_of_not_lt fun hlong => ?_
    obtain ⟨hmore, hsymbol⟩ := symbol_behind hp hprefix hlong
    rcases h '=' hmore with hbreak | ⟨htail, -⟩
    · exact (hbreak '=' rfl).2.2 rfl
    · -- The longer symbol stands in front of the first text as well and would have been found.
      obtain ⟨rest, rfl⟩ := List.head?_eq_some_iff.1 htail
      refine Nat.not_le_of_lt hlong (symbol?_longest hfound p hp ?_)
      rw [hsymbol]
      exact ⟨rest, rfl⟩
  · rcases standard_symbols_shape p hp with ⟨d, hd⟩ | ⟨d, hd⟩
    · rw [hd]
      exact Nat.le_succ 1
    · rw [hd]
      exact Nat.le_refl 2

/-- A symbol that is found is found in front of every continuation. -/
theorem symbol?_replace {kind : TokenKind} (h : Continues tail more)
    (hfound : symbol? .standard (chars ++ tail) = some (chars, kind)) :
    symbol? .standard (chars ++ more) = some (chars, kind) := by
  rw [← hfound]
  -- A symbol in front of either text is no longer than the one that was found.
  refine symbol?_congr fun p hp => ⟨fun hprefix => ?_, fun hprefix => ?_⟩
  · have hle := length_le_of_continues h hfound hp hprefix
    exact (List.prefix_of_prefix_length_le hprefix (List.prefix_append chars more) hle).trans
      (List.prefix_append _ _)
  · have hle := symbol?_longest hfound p hp hprefix
    exact (List.prefix_of_prefix_length_le hprefix (List.prefix_append chars tail) hle).trans
      (List.prefix_append _ _)

end Lexeme

namespace StringReading

theorem pos_of_closed {text contents : List Char} {n : Nat} (h : ofText text = closed contents n) :
    0 < n := by
  cases n with
  | succ n => exact Nat.succ_pos n
  | zero =>
    have hcons : ∀ (r : StringReading) c width, r.cons c (width + 1) ≠ closed contents 0 := by
      intro r c width hr
      obtain ⟨_, _, _, _, hm⟩ := cons_eq_closed hr
      omega
    unfold ofText at h
    split at h
    · cases h
    · split at h <;> cases h
    · split at h
      · cases h
      · split at h
        · split at h
          · exact absurd h (hcons _ _ 1)
          · cases h
        · exact absurd h (hcons _ _ 0)

/-- What closes a string is the last character that is read of it. -/
theorem ofText_take {text contents : List Char} {n : Nat} (h : ofText text = closed contents n) :
    ofText (text.take n) = closed contents n := by
  induction text using ofText.induct generalizing contents n with
  | case1 => cases h
  | case2 =>
    cases h
    rfl
  | case3 c hc =>
    rw [ofText, if_neg hc] at h
    cases h
  | case4 d rest =>
    rw [ofText, if_pos rfl] at h
    cases h
    rfl
  | case5 d rest e he hne ih =>
    rw [ofText, if_neg hne, if_pos rfl, he] at h
    obtain ⟨_, m, hrest, rfl, rfl⟩ := cons_eq_closed h
    rw [List.take_succ_cons, List.take_succ_cons, ofText, if_neg hne, if_pos rfl, he]
    dsimp only
    rw [ih hrest, cons]
  | case6 d rest he hne =>
    rw [ofText, if_neg hne, if_pos rfl, he] at h
    cases h
  | case7 c d rest hc hc' ih =>
    rw [ofText, if_neg hc, if_neg hc'] at h
    obtain ⟨_, m, hrest, rfl, rfl⟩ := cons_eq_closed h
    obtain ⟨m, rfl⟩ := Nat.exists_eq_succ_of_ne_zero (Nat.ne_of_gt (pos_of_closed hrest))
    have ih := ih hrest
    rw [List.take_succ_cons] at ih
    rw [List.take_succ_cons, List.take_succ_cons, ofText, if_neg hc, if_neg hc', ih, cons]

end StringReading

namespace Reading

variable {c : Char} {rest tail more : List Char}

/-- A lexeme is read alike in front of every continuation. -/
theorem ofText_replace {l : Lexeme} (h : ofText .standard c (rest ++ tail) = lexeme l)
    (hl : l.length = (c :: rest).length) (hmore : Continues tail more) :
    ofText .standard c (rest ++ more) = lexeme l := by
  refine ofText_eq_iff.2 ?_
  cases ofText_eq_iff.1 h with
  | number hs hc =>
    rw [← List.cons_append, ← Lexeme.number_replace hmore hl]
    exact .number hs hc
  | word hs hd hc =>
    rw [← List.cons_append, ← Lexeme.word_replace hmore hl]
    exact .word hs hd hc
  | @string contents n hc hs =>
    obtain rfl : n = rest.length := Nat.succ.inj hl
    have htake := StringReading.ofText_take hs
    rw [List.take_left] at htake
    exact .string hc (StringReading.ofText_append htake more)
  | @symbol chars kind hc hs =>
    obtain ⟨_, _, _, hprefix⟩ := Lexeme.symbol?_cases hs
    obtain rfl : chars = c :: rest :=
      (List.prefix_of_prefix_length_le hprefix (List.prefix_append (c :: rest) tail)
        (Nat.le_of_eq hl)).eq_of_length hl
    rw [← List.cons_append] at hs
    exact .symbol hc (Lexeme.symbol?_replace hmore hs)

/-- White space is read alike in front of texts that begin with the same character. -/
theorem ofText_replace_space {n : Nat} (h : ofText .standard c (rest ++ tail) = space n)
    (hn : n = (c :: rest).length) (hmore : ∀ d ∈ more.head?, d ∈ tail.head?) :
    ofText .standard c (rest ++ more) = space n := by
  cases ofText_eq_iff.1 h with
  | space hc =>
    have hlength : ((c :: rest ++ tail).takeWhile Lexeme.isSpace).length = (c :: rest).length := hn
    refine (Begins.space hc).eq.trans ?_
    rw [← List.cons_append, ← List.cons_append,
      takeWhile_replace hlength fun d hd => not_of_takeWhile_length hlength (hmore d hd),
      takeWhile_append_eq_left hlength]

/-- No lexeme begins with a point. -/
theorem ofText_point (rest : List Char) :
    ofText .standard '.' rest = fault (.unexpectedCharacter '.') 0 1 := by
  rfl

end Reading

namespace Stream.Cuts

variable {table : Table} {offset : Nat} {text more : List Char} {s s' : Stream}

/-- A lexeme in front of the rest of a text. -/
theorem lexeme_append {c : Char} {chars tail : List Char} {l : Lexeme}
    (h : Reading.ofText table c (chars ++ tail) = .lexeme l) (hl : l.length = (c :: chars).length)
    (hs : Cuts table (offset + l.length) tail s) :
    Cuts table offset (c :: (chars ++ tail))
      (cons ⟨l.kind, .ofLength offset l.length, l.payload, c :: chars⟩ s) := by
  have hdrop : (c :: (chars ++ tail)).drop l.length = tail := by
    rw [hl, ← List.cons_append, List.drop_left]
  have htake : (c :: (chars ++ tail)).take l.length = c :: chars := by
    rw [hl, ← List.cons_append, List.take_left]
  have hne : l.length ≠ 0 := by
    rw [hl]
    exact Nat.succ_ne_zero _
  rw [← hdrop] at hs
  have hcut := Cuts.lexeme h hne hs
  rwa [htake] at hcut

theorem space_append {c : Char} {chars tail : List Char} {n : Nat}
    (h : Reading.ofText table c (chars ++ tail) = .space n) (hn : n = (c :: chars).length)
    (hs : Cuts table (offset + n) tail s) : Cuts table offset (c :: (chars ++ tail)) s := by
  refine .space h ?_
  rwa [← List.cons_append, hn, List.drop_left, ← hn]

/-- Where a text is cut off behind its first piece, nothing changes in the piece. -/
theorem take_piece {c : Char} {chars tail : List Char} {n stop : Nat} (hn : n = (c :: chars).length)
    (hle : offset + n ≤ stop) (more : List Char) :
    (c :: (chars ++ tail)).take (stop - offset) ++ more =
      c :: (chars ++ (tail.take (stop - (offset + n)) ++ more)) := by
  have hstop : stop - offset = (c :: chars).length + (stop - (offset + n)) := by omega
  rw [hstop, ← List.cons_append, List.take_length_add_append, List.append_assoc]
  rfl

/-- The characters of the first piece and the text behind it. -/
theorem exists_split {c : Char} {rest : List Char} {n : Nat} (h0 : n ≠ 0)
    (hn : n ≤ (c :: rest).length) :
    ∃ chars tail, rest = chars ++ tail ∧ n = (c :: chars).length ∧ (c :: rest).drop n = tail := by
  obtain ⟨n, rfl⟩ := Nat.exists_eq_succ_of_ne_zero h0
  refine ⟨rest.take n, rest.drop n, (List.take_append_drop n rest).symm, ?_, rfl⟩
  rw [List.length_cons, List.length_take_of_le (Nat.le_of_succ_le_succ hn)]

/-- A token in a text has characters. -/
theorem start_lt_stop (h : Cuts .standard offset text s) :
    ∀ t ∈ s.tokens, t.kind ≠ .endOfInput → t.span.start < t.span.stop := by
  induction h with
  | done =>
    intro t ht hk
    rw [List.mem_singleton.1 ht] at hk
    exact absurd rfl hk
  | space _ _ ih => exact ih
  | lexeme hr _ _ ih =>
    intro t ht hk
    rcases List.mem_cons.1 ht with rfl | ht
    · exact Nat.lt_add_of_pos_right (Reading.sound_of_lexeme hr).length_pos
    · exact ih t ht hk
  | _ => exact fun t ht => absurd ht (by simp)

/-- A text that begins with a point has no tokens. -/
theorem head_ne_point (h : Cuts .standard offset text s) (hs : s.tokens ≠ []) :
    ∀ c ∈ text.head?, c ≠ '.' := by
  rintro c hc rfl
  obtain ⟨rest, rfl⟩ := List.head?_eq_some_iff.1 hc
  cases h with
  | space hr => cases hr.symm.trans (Reading.ofText_point rest)
  | lexeme hr => cases hr.symm.trans (Reading.ofText_point rest)
  | _ => exact hs rfl

/-- The tokens of a text end within it. -/
theorem stop_le (h : Cuts table offset text s) :
    ∀ t ∈ s.tokens, t.span.stop ≤ offset + text.length := by
  induction h with
  | done =>
    intro t ht
    rw [List.mem_singleton.1 ht]
    exact Nat.le_refl _
  | space hr _ ih =>
    intro t ht
    have := ih t ht
    rwa [stop_drop (Reading.le_of_space hr).2] at this
  | @lexeme offset c rest l s hr _ _ ih =>
    intro t ht
    rcases List.mem_cons.1 ht with rfl | ht
    · exact Nat.add_le_add_left (Reading.le_of_lexeme hr) offset
    · have := ih t ht
      rwa [stop_drop (Reading.le_of_lexeme hr)] at this
  | _ => exact fun t ht => absurd ht (by simp)

/-- What stands behind the beginning of a token is cut as if it stood alone. -/
theorem drop {us r : List Token} {t : Token} (h : Cuts table offset text s)
    (hs : s.tokens = us ++ t :: r) :
    Cuts table t.span.start (text.drop (t.span.start - offset)) ⟨t :: r, s.ending⟩ := by
  have behind : ∀ {us : List Token} {offset n : Nat} {text : List Char} {s : Stream},
      s.tokens = us ++ t :: r → Cuts table (offset + n) (text.drop n) s →
      (text.drop n).drop (t.span.start - (offset + n)) = text.drop (t.span.start - offset) := by
    intro us offset n text s hs h
    have hle := h.start_le t (by rw [hs]; exact List.mem_append_right us (List.mem_cons_self ..))
    rw [List.drop_drop]
    congr 1
    omega
  induction h generalizing us with
  | done =>
    cases us with
    | nil =>
      cases hs
      rw [Token.endOfInput, Span.start_ofLength, Nat.sub_self]
      exact .done
    | cons _ us => exact absurd (List.cons.inj hs).2 (by simp)
  | space hr hcuts ih =>
    rw [← behind hs hcuts]
    exact ih hs
  | lexeme hr hl hcuts ih =>
    cases us with
    | nil =>
      obtain ⟨rfl, rfl⟩ := List.cons.inj hs
      rw [Span.start_ofLength, Nat.sub_self]
      exact .lexeme hr hl hcuts
    | cons _ us =>
      have htail := (List.cons.inj hs).2
      rw [← behind htail hcuts]
      exact ih htail
  | _ => exact absurd hs (by simp)

/-- In front of a token the text goes on up to its end, and what takes the place of the text behind it
goes on with a piece in front of it in the same way. -/
theorem continues {us r : List Token} {last : Token} (h : Cuts .standard offset text s)
    (hs : s.tokens = us ++ last :: r) (hlast : last.kind ≠ .endOfInput) (more : List Char) :
    offset < last.span.stop ∧
      (∀ d ∈ (text.take (last.span.stop - offset) ++ more).head?, d ∈ text.head?) ∧
      Continues text (text.take (last.span.stop - offset) ++ more) := by
  have hmem : last ∈ s.tokens := by
    rw [hs]
    exact List.mem_append_right us (List.mem_cons_self ..)
  have hstart := h.start_le last hmem
  have hstop := h.start_lt_stop last hmem hlast
  have hle := h.stop_le last hmem
  have same : ∀ d ∈ (text.take (last.span.stop - offset) ++ more).head?, d ∈ text.head? := by
    obtain ⟨n, hn⟩ := Nat.exists_eq_add_of_lt (Nat.lt_of_le_of_lt hstart hstop)
    cases text with
    | nil =>
      rw [List.length_nil] at hle
      omega
    | cons c text =>
      intro d hd
      rw [show last.span.stop - offset = n + 1 by omega] at hd
      exact hd
  exact ⟨by omega, same, fun d hd =>
    .inr ⟨same d hd, h.head_ne_point (List.ne_nil_of_mem hmem) d (same d hd)⟩⟩

/-- A text may be cut off behind a token and continued with anything that does not go on with it. -/
theorem splice {us r : List Token} {last : Token} (h : Cuts .standard offset text s)
    (hs : s.tokens = us ++ last :: r) (hlast : last.kind ≠ .endOfInput) (hmore : Breaks more)
    (h' : Cuts .standard last.span.stop more s') :
    Cuts .standard offset (text.take (last.span.stop - offset) ++ more)
      ⟨us ++ last :: s'.tokens, s'.ending⟩ := by
  induction h generalizing us with
  | done =>
    cases us with
    | nil =>
      cases hs
      exact absurd rfl hlast
    | cons _ us => exact absurd (List.cons.inj hs).2 (by simp)
  | @space offset c rest n s hr hcuts ih =>
    have hle := Reading.le_of_space hr
    obtain ⟨chars, tail, rfl, hn, hdrop⟩ := exists_split (Nat.ne_of_gt hle.1) hle.2
    rw [hdrop] at hcuts ih
    obtain ⟨hlt, hhead, -⟩ := hcuts.continues hs hlast more
    rw [take_piece hn (Nat.le_of_lt hlt)]
    exact space_append (Reading.ofText_replace_space hr hn hhead) hn (ih hs)
  | @lexeme offset c rest l s hr hl hcuts ih =>
    obtain ⟨chars, tail, rfl, hn, hdrop⟩ := exists_split hl (Reading.le_of_lexeme hr)
    have htake : (c :: (chars ++ tail)).take l.length = c :: chars := by
      rw [hn, ← List.cons_append, List.take_left]
    rw [hdrop] at hcuts ih
    rw [cons, htake] at hs
    cases us with
    | nil =>
      obtain ⟨rfl, rfl⟩ := List.cons.inj hs
      have hstop : offset + l.length - offset = (c :: chars).length := by omega
      rw [Span.stop_ofLength, hstop, ← List.cons_append, List.take_left]
      exact lexeme_append (Reading.ofText_replace hr hn hmore.continues) hn h'
    | cons _ us =>
      obtain ⟨rfl, htail⟩ := List.cons.inj hs
      obtain ⟨hlt, -, hcontinues⟩ := hcuts.continues htail hlast more
      rw [take_piece hn (Nat.le_of_lt hlt)]
      exact lexeme_append (Reading.ofText_replace hr hn hcontinues) hn (ih htail)
  | _ => exact absurd hs (by simp)

/-- In front of a token a text may end without a change to what comes before. -/
theorem front {us r : List Token} {t : Token} (h : Cuts .standard offset text s)
    (hs : s.tokens = us ++ t :: r) :
    Cuts .standard offset (text.take (t.span.start - offset))
      ⟨us ++ [.endOfInput t.span.start], .exhausted⟩ := by
  have mem : ∀ {s : Stream} {us : List Token}, s.tokens = us ++ t :: r → t ∈ s.tokens := by
    intro s us hs
    rw [hs]
    exact List.mem_append_right us (List.mem_cons_self ..)
  have head : ∀ {tail : List Char} {n : Nat}, ∀ c ∈ (tail.take n).head?, c ∈ tail.head? := by
    intro tail n c hc
    rw [List.head?_take] at hc
    split at hc
    · cases hc
    · exact hc
  induction h generalizing us with
  | done =>
    cases us with
    | nil =>
      cases hs
      rw [List.take_nil]
      exact .done
    | cons _ us => exact absurd (List.cons.inj hs).2 (by simp)
  | @space offset c rest n s hr hcuts ih =>
    have hle := Reading.le_of_space hr
    obtain ⟨chars, tail, rfl, hn, hdrop⟩ := exists_split (Nat.ne_of_gt hle.1) hle.2
    rw [hdrop] at hcuts ih
    have htake : (c :: (chars ++ tail)).take (t.span.start - offset) =
        c :: (chars ++ tail.take (t.span.start - (offset + n))) := by
      simpa only [List.append_nil] using take_piece hn (hcuts.start_le t (mem hs)) []
    rw [htake]
    exact space_append (Reading.ofText_replace_space hr hn head) hn (ih hs)
  | @lexeme offset c rest l s hr hl hcuts ih =>
    obtain ⟨chars, tail, rfl, hn, hdrop⟩ := exists_split hl (Reading.le_of_lexeme hr)
    have hlexeme : (c :: (chars ++ tail)).take l.length = c :: chars := by
      rw [hn, ← List.cons_append, List.take_left]
    rw [hdrop] at hcuts ih
    rw [cons, hlexeme] at hs
    cases us with
    | nil =>
      obtain ⟨rfl, rfl⟩ := List.cons.inj hs
      rw [Span.start_ofLength, Nat.sub_self]
      exact .done
    | cons _ us =>
      obtain ⟨rfl, htail⟩ := List.cons.inj hs
      have htake : (c :: (chars ++ tail)).take (t.span.start - offset) =
          c :: (chars ++ tail.take (t.span.start - (offset + l.length))) := by
        simpa only [List.append_nil] using take_piece hn (hcuts.start_le t (mem htail)) []
      rw [htake]
      -- What is left behind the lexeme begins as before, or not at all.
      have hcontinues : Continues tail (tail.take (t.span.start - (offset + l.length))) :=
        fun d hd => .inr ⟨head d hd,
          hcuts.head_ne_point (List.ne_nil_of_mem (mem htail)) d (head d hd)⟩
      exact lexeme_append (Reading.ofText_replace hr hn hcontinues) hn (ih htail)
  | _ => exact absurd hs (by simp)

end Stream.Cuts

namespace Stream

variable {text : List Char} {pre us post : List Token} {s : Span}

/-- **Slices are cut alike**: the tokens of a part of a text that begins with one token and ends with
another one are those in the text, but for the end of input behind them. -/
theorem ofText_slice (hs : (ofText .standard text).tokens = pre ++ (us ++ post)) (hus : Covers us s)
    (hkind : ∀ t ∈ us, t.kind ≠ .endOfInput) :
    (ofText .standard (s.slice text)).shift s.start = ⟨us ++ [.endOfInput s.stop], .exhausted⟩ := by
  obtain ⟨first, last, hfirst, hlast, hstart, hstop⟩ := hus
  obtain ⟨rest, rfl⟩ := List.head?_eq_some_iff.1 hfirst
  have hdrop := (ofText_cuts .standard text).drop hs
  rw [← hstart, Nat.sub_zero] at hdrop
  obtain ⟨init, hinit⟩ := List.getLast?_eq_some_iff.1 hlast
  have hdone : Cuts .standard last.span.stop [] ⟨[.endOfInput s.stop], .exhausted⟩ := by
    rw [hstop]
    exact .done
  have htokens : first :: (rest ++ post) = init ++ last :: post := by
    rw [← List.cons_append, hinit, List.append_assoc]
    rfl
  have hmem : last ∈ first :: rest := by
    rw [hinit]
    exact List.mem_append_right init (List.mem_singleton_self last)
  have hsplice := hdrop.splice htokens (hkind last hmem) Breaks.nil hdone
  have hshift := (ofText_cuts .standard (s.slice text)).shift s.start
  rw [Nat.zero_add] at hshift
  refine hshift.unique ?_
  rw [List.append_nil, ← hstop] at hsplice
  rw [hinit, List.append_assoc]
  exact hsplice

end Stream

end Curly
