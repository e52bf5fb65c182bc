import Curly.Proofs.Token.Sequence
import Curly.Token.Lexeme

/-!
# What stands at the beginning of a text

Bounds on the length of what is read, under every table, and what the lexemes of the language say.

## Main definitions

* `Lexeme.LongestFirst`: a list of symbols that are tried from the longest on.
* `Reading.Begins`: what stands at the beginning of a text, class by class.

## Main statements

* `Lexeme.symbol?_longest`: the first alternative that fits is the longest symbol that does.
* `Reading.ofText_eq_iff`: what is read belongs to one of the classes.
* `Reading.le_of_space`, `Reading.le_of_lexeme`: what is read is part of the text.
* `Reading.sound_of_lexeme`: the lexemes of the language have characters and fit their kinds.
-/

namespace Curly

namespace Lexeme

variable {table : Table} {text : List Char}

/-! ### The order in which symbols are tried -/

theorem mem_insertByLength {x y : List Char × TokenKind} {l : List (List Char × TokenKind)} :
    x ∈ insertByLength y l ↔ x = y ∨ x ∈ l := by
  induction l with
  | nil => simp [insertByLength]
  | cons z l ih =>
    unfold insertByLength
    split
    · simp
    · simp only [List.mem_cons, ih, or_left_comm]

/-- No symbol in the list is longer than one before it. -/
abbrev LongestFirst (l : List (List Char × TokenKind)) : Prop :=
  l.Pairwise fun x y => y.1.length ≤ x.1.length

theorem LongestFirst.insertByLength {x : List Char × TokenKind} {l : List (List Char × TokenKind)}
    (h : LongestFirst l) : LongestFirst (insertByLength x l) := by
  induction l with
  | nil => exact List.pairwise_singleton _ x
  | cons y l ih =>
    obtain ⟨hy, hl⟩ := List.pairwise_cons.1 h
    unfold Lexeme.insertByLength
    split
    · next hle =>
      refine List.pairwise_cons.2 ⟨fun z hz => ?_, h⟩
      rcases List.mem_cons.1 hz with rfl | hz
      · exact hle
      · exact Nat.le_trans (hy z hz) hle
    · next hlt =>
      refine List.pairwise_cons.2 ⟨fun z hz => ?_, ih hl⟩
      rcases mem_insertByLength.1 hz with rfl | hz
      · omega
      · exact hy z hz

/-- The symbols of the table are tried and no others. -/
theorem mem_alternatives {x : List Char × TokenKind} :
    x ∈ alternatives table ↔ ∃ p ∈ table.symbols, (p.1.toList, p.2) = x := by
  rw [← List.mem_map]
  unfold alternatives
  induction table.symbols.map fun p => (p.1.toList, p.2) with
  | nil => exact Iff.rfl
  | cons y l ih => rw [List.foldr_cons, mem_insertByLength, ih, List.mem_cons]

/-- Longer symbols are tried before shorter ones. -/
theorem alternatives_longestFirst (table : Table) : LongestFirst (alternatives table) := by
  unfold alternatives
  induction table.symbols.map fun p => (p.1.toList, p.2) with
  | nil => exact List.Pairwise.nil
  | cons y l ih => exact ih.insertByLength

/-- A symbol that is found is in the table and at the beginning of the text. -/
theorem symbol?_cases {chars : List Char} {kind : TokenKind}
    (h : symbol? table text = some (chars, kind)) :
    ∃ s, (s, kind) ∈ table.symbols ∧ s.toList = chars ∧ chars <+: text := by
  obtain ⟨⟨s, k⟩, hs, heq⟩ := mem_alternatives.1 (List.mem_of_find?_eq_some h)
  have hbegins := List.find?_some h
  cases heq
  exact ⟨s, hs, rfl, List.isPrefixOf_iff_prefix.1 hbegins⟩

/-- Nothing is found exactly if the text begins with no symbol. -/
theorem symbol?_eq_none_iff :
    symbol? table text = none ↔ ∀ p ∈ table.symbols, ¬p.1.toList <+: text := by
  rw [symbol?, List.find?_eq_none]
  constructor
  · intro h p hp hbegins
    exact h _ (mem_alternatives.2 ⟨p, hp, rfl⟩) (List.isPrefixOf_iff_prefix.2 hbegins)
  · intro h x hx hbegins
    obtain ⟨p, hp, rfl⟩ := mem_alternatives.1 hx
    exact h p hp (List.isPrefixOf_iff_prefix.1 hbegins)

/-- **The first alternative is the longest**: a symbol that is found is as long as any other one that the
text begins with. -/
theorem symbol?_longest {found : List Char} {kind : TokenKind}
    (h : symbol? table text = some (found, kind)) :
    ∀ p ∈ table.symbols, p.1.toList <+: text → p.1.toList.length ≤ found.length := by
  intro p hp hbegins
  have hsorted := alternatives_longestFirst table
  have hmem : (p.1.toList, p.2) ∈ alternatives table := mem_alternatives.2 ⟨p, hp, rfl⟩
  -- What was tried before the one that is found did not fit.
  obtain ⟨-, before, after, hsplit, hbefore⟩ := List.find?_eq_some_iff_append.1 h
  rw [hsplit] at hsorted hmem
  rcases List.mem_append.1 hmem with hmem | hmem
  · have hunfit := hbefore _ hmem
    rw [List.isPrefixOf_iff_prefix.2 hbegins] at hunfit
    cases hunfit
  · rcases List.mem_cons.1 hmem with heq | hmem
    · exact Nat.le_of_eq (congrArg (fun x => x.1.length) heq)
    · exact (List.pairwise_cons.1 (List.pairwise_append.1 hsorted).2.1).1 _ hmem

/-- Texts that begin with the same symbols have the same one found. -/
theorem symbol?_congr {text' : List Char}
    (h : ∀ p ∈ table.symbols, p.1.toList <+: text ↔ p.1.toList <+: text') :
    symbol? table text = symbol? table text' := by
  have hfits : ∀ x ∈ alternatives table, x.1.isPrefixOf text = x.1.isPrefixOf text' := by
    intro x hx
    obtain ⟨p, hp, rfl⟩ := mem_alternatives.1 hx
    rw [Bool.eq_iff_iff, List.isPrefixOf_iff_prefix, List.isPrefixOf_iff_prefix, h p hp]
  unfold symbol?
  generalize alternatives table = l at hfits
  induction l with
  | nil => rfl
  | cons x l ih =>
    rw [List.find?_cons, List.find?_cons, hfits x (List.mem_cons_self ..),
      ih fun y hy => hfits y (List.mem_cons_of_mem _ hy)]

theorem length_fractionOf_le (text : List Char) :
    (fractionOf text).isEmpty = false → (fractionOf text).length + 1 ≤ text.length := by
  intro h
  unfold fractionOf at h ⊢
  split
  · next rest =>
    rw [List.length_cons]
    exact Nat.succ_le_succ (List.takeWhile_sublist _).length_le
  · simp at h

theorem length_number_le (text : List Char) : (number text).length ≤ text.length := by
  have hwhole : (text.takeWhile Char.isDigit).length + (text.dropWhile Char.isDigit).length =
      text.length := by
    rw [← List.length_append, List.takeWhile_append_dropWhile]
  unfold number
  dsimp only
  split
  · dsimp only
    omega
  · next h =>
    have := length_fractionOf_le (text.dropWhile Char.isDigit) (by simpa using h)
    dsimp only
    omega

theorem length_word_le (table : Table) (text : List Char) :
    (word table text).length ≤ text.length := by
  have := (List.takeWhile_sublist isWordPart (l := text)).length_le
  unfold word
  dsimp only
  split <;> exact this

end Lexeme

namespace StringReading

theorem cons_eq_closed {r : StringReading} {c : Char} {width n : Nat} {contents : List Char}
    (h : r.cons c width = closed contents n) :
    ∃ rest m, r = closed rest m ∧ contents = c :: rest ∧ n = m + width := by
  cases r with
  | closed rest m =>
    cases h
    exact ⟨rest, m, rfl, rfl, rfl⟩
  | unknownEscape => cases h
  | unterminated => cases h

/-- The number of characters that were looked at until a string was closed or found to be faulty. -/
def reach : StringReading → Nat
  | closed _ n => n
  | unknownEscape offset _ => offset + 2
  | unterminated => 0

theorem reach_cons_le (r : StringReading) (c : Char) (width : Nat) :
    (r.cons c width).reach ≤ r.reach + width := by
  cases r with
  | closed => exact Nat.le_refl _
  | unknownEscape offset e => exact Nat.le_of_eq (Nat.add_right_comm offset width 2)
  | unterminated => exact Nat.zero_le _

/-- A string ends or fails within the text. -/
theorem reach_ofText_le (text : List Char) : (ofText text).reach ≤ text.length := by
  induction text using ofText.induct with
  | case1 => exact Nat.le_refl _
  | case2 => exact Nat.le_refl _
  | case3 c hc =>
    rw [ofText, if_neg hc]
    exact Nat.zero_le _
  | case4 d rest =>
    rw [ofText, if_pos rfl]
    exact Nat.succ_le_succ (Nat.zero_le _)
  | case5 d rest e he hne ih =>
    rw [ofText, if_neg hne, if_pos rfl, he]
    exact Nat.le_trans (reach_cons_le _ _ _) (Nat.add_le_add_right ih 2)
  | case6 d rest he hne =>
    rw [ofText, if_neg hne, if_pos rfl, he]
    exact Nat.le_add_left 2 rest.length
  | case7 c d rest hc hc' ih =>
    rw [ofText, if_neg hc, if_neg hc']
    exact Nat.le_trans (reach_cons_le _ _ _) (Nat.add_le_add_right ih 1)

theorem length_le_of_closed {text contents : List Char} {n : Nat}
    (h : ofText text = closed contents n) : n ≤ text.length := by
  have := reach_ofText_le text
  rwa [h] at this

end StringReading

/-- A lexeme has characters and fits its kind wherever it stands. -/
structure Lexeme.Sound (l : Lexeme) : Prop where
  length_pos : 0 < l.length
  kind_ne : l.kind ≠ .endOfInput
  fits : ∀ offset chars, Token.Fits ⟨l.kind, .ofLength offset l.length, l.payload, chars⟩

namespace Reading

variable {table : Table} {c : Char} {rest : List Char}

/-- The character begins neither white space nor a number, a word or a string. -/
def Symbolic (c : Char) : Prop :=
  Lexeme.isSpace c = false ∧ c.isDigit = false ∧ Lexeme.isWordStart c = false ∧ c ≠ Quoted.double

/-- What stands at the beginning of a text, class by class. -/
inductive Begins (table : Table) (c : Char) (rest : List Char) : Reading → Prop where
  | space (hc : Lexeme.isSpace c = true) :
      Begins table c rest (space ((c :: rest).takeWhile Lexeme.isSpace).length)
  | number (hs : Lexeme.isSpace c = false) (hc : c.isDigit = true) :
      Begins table c rest (lexeme (Lexeme.number (c :: rest)))
  | word (hs : Lexeme.isSpace c = false) (hd : c.isDigit = false)
      (hc : Lexeme.isWordStart c = true) :
      Begins table c rest (lexeme (Lexeme.word table (c :: rest)))
  | string {contents n} (hc : c = Quoted.double)
      (h : StringReading.ofText rest = .closed contents n) :
      Begins table c rest (lexeme ⟨.string, .string (String.ofList contents), n + 1⟩)
  | unknownEscape {offset e} (hc : c = Quoted.double)
      (h : StringReading.ofText rest = .unknownEscape offset e) :
      Begins table c rest (fault (.unknownEscape e) (offset + 1) 2)
  | unterminated (hc : c = Quoted.double) (h : StringReading.ofText rest = .unterminated) :
      Begins table c rest (fault .unterminatedString 0 (c :: rest).length)
  | symbol {chars kind} (hc : Symbolic c)
      (h : Lexeme.symbol? table (c :: rest) = some (chars, kind)) :
      Begins table c rest (lexeme ⟨kind, .none, chars.length⟩)
  | unexpected (hc : Symbolic c) (h : Lexeme.symbol? table (c :: rest) = none)
      (ht : table.symbols.isEmpty = false) :
      Begins table c rest (fault (.unexpectedCharacter c) 0 1)
  | unmatched (hc : Symbolic c) (h : Lexeme.symbol? table (c :: rest) = none)
      (ht : table.symbols.isEmpty = true) : Begins table c rest unmatched

theorem ofText_begins (table : Table) (c : Char) (rest : List Char) :
    Begins table c rest (ofText table c rest) := by
  unfold ofText
  dsimp only
  by_cases hs : Lexeme.isSpace c = true
  · rw [if_pos hs]
    exact .space hs
  rw [if_neg hs]
  by_cases hd : c.isDigit = true
  · rw [if_pos hd]
    exact .number (Bool.eq_false_iff.2 hs) hd
  rw [if_neg hd]
  by_cases hw : Lexeme.isWordStart c = true
  · rw [if_pos hw]
    exact .word (Bool.eq_false_iff.2 hs) (Bool.eq_false_iff.2 hd) hw
  rw [if_neg hw]
  by_cases hq : c = Quoted.double
  · rw [if_pos hq]
    cases hr : StringReading.ofText rest with
    | closed => exact .string hq hr
    | unknownEscape => exact .unknownEscape hq hr
    | unterminated => exact .unterminated hq hr
  rw [if_neg hq]
  have hc : Symbolic c := by
    simp only [Bool.not_eq_true] at hs hd hw
    exact ⟨hs, hd, hw, hq⟩
  cases h : Lexeme.symbol? table (c :: rest) with
  | some found => exact .symbol hc h
  | none =>
    by_cases ht : table.symbols.isEmpty = true
    · dsimp only
      rw [if_pos ht]
      exact .unmatched hc h ht
    · dsimp only
      rw [if_neg ht]
      exact .unexpected hc h (Bool.eq_false_iff.2 ht)

theorem Begins.eq {r : Reading} (h : Begins table c rest r) : ofText table c rest = r := by
  cases h with
  | space hc => simp only [ofText, hc, if_true]
  | number hs hc => simp only [ofText, hs, hc, if_true, Bool.false_eq_true, if_false]
  | word hs hd hc => simp only [ofText, hs, hd, hc, if_true, Bool.false_eq_true, if_false]
  | string hc h =>
    subst hc
    simp only [ofText, h]
    rfl
  | unknownEscape hc h =>
    subst hc
    simp only [ofText, h]
    rfl
  | unterminated hc h =>
    subst hc
    simp only [ofText, h]
    rfl
  | symbol hc h =>
    obtain ⟨hs, hd, hw, hq⟩ := hc
    simp only [ofText, hs, hd, hw, if_neg hq, h, Bool.false_eq_true, if_false]
  | unexpected hc h ht =>
    obtain ⟨hs, hd, hw, hq⟩ := hc
    simp only [ofText, hs, hd, hw, if_neg hq, h, ht, Bool.false_eq_true, if_false]
  | unmatched hc h ht =>
    obtain ⟨hs, hd, hw, hq⟩ := hc
    simp only [ofText, hs, hd, hw, if_neg hq, h, ht, Bool.false_eq_true, if_false, if_true]

theorem ofText_eq_iff {r : Reading} : ofText table c rest = r ↔ Begins table c rest r :=
  ⟨fun h => h ▸ ofText_begins table c rest, Begins.eq⟩

/-- White space is part of the text. -/
theorem le_of_space {n : Nat} (h : ofText table c rest = space n) :
    0 < n ∧ n ≤ (c :: rest).length := by
  cases ofText_eq_iff.1 h with
  | space hc =>
    refine ⟨?_, (List.takeWhile_sublist _).length_le⟩
    rw [List.takeWhile_cons_of_pos hc]
    exact Nat.succ_pos _

/-- A lexeme is part of the text. -/
theorem le_of_lexeme {l : Lexeme} (h : ofText table c rest = lexeme l) :
    l.length ≤ (c :: rest).length := by
  cases ofText_eq_iff.1 h with
  | number => exact Lexeme.length_number_le _
  | word => exact Lexeme.length_word_le _ _
  | string _ hr => exact Nat.succ_le_succ (StringReading.length_le_of_closed hr)
  | symbol _ hs =>
    obtain ⟨s, _, rfl, hprefix⟩ := Lexeme.symbol?_cases hs
    exact hprefix.length_le

/-- What is faulty is part of the text. -/
theorem le_of_fault {cause : LexCause} {start length : Nat}
    (h : ofText table c rest = fault cause start length) : start + length ≤ (c :: rest).length := by
  cases ofText_eq_iff.1 h with
  | @unknownEscape offset _ _ hr =>
    have := StringReading.reach_ofText_le rest
    rw [hr, StringReading.reach] at this
    rw [List.length_cons]
    omega
  | unterminated => exact Nat.le_of_eq (Nat.zero_add _)
  | unexpected => exact Nat.succ_le_succ (Nat.zero_le _)

/-- The symbols of the language have characters and say nothing beyond their kind. -/
theorem standard_symbols : ∀ p ∈ Table.standard.symbols, 0 < p.1.toList.length ∧
    p.2 ≠ .endOfInput ∧ p.2 ≠ .identifier ∧ p.2 ≠ .number ∧ p.2 ≠ .string := by
  decide

theorem standard_keywords : ∀ p ∈ Table.standard.keywords,
    p.2 ≠ .endOfInput ∧ p.2 ≠ .identifier ∧ p.2 ≠ .number ∧ p.2 ≠ .string := by
  decide

theorem fits_of_ne {t : Token} (h : t.kind ≠ .endOfInput ∧ t.kind ≠ .identifier ∧
    t.kind ≠ .number ∧ t.kind ≠ .string) : t.Fits := by
  unfold Token.Fits
  split
  · next hk => exact absurd hk h.2.1
  · next hk => exact absurd hk h.2.2.1
  · next hk => exact absurd hk h.2.2.2
  · trivial

theorem number_sound (hc : c.isDigit = true) : (Lexeme.number (c :: rest)).Sound := by
  unfold Lexeme.number
  rw [List.takeWhile_cons_of_pos hc]
  dsimp only
  split
  · exact ⟨Nat.succ_pos _, by simp, fun _ _ => ⟨_, rfl⟩⟩
  · exact ⟨by dsimp only; omega, by simp, fun _ _ => ⟨_, rfl⟩⟩

theorem isWordPart_of_isWordStart (hc : Lexeme.isWordStart c = true) :
    Lexeme.isWordPart c = true := by
  simp only [Lexeme.isWordStart, Lexeme.isWordPart, Char.isAlphanum, Bool.or_eq_true] at hc ⊢
  exact hc.imp_left .inl

theorem word_sound (hc : Lexeme.isWordStart c = true) :
    (Lexeme.word .standard (c :: rest)).Sound := by
  unfold Lexeme.word
  rw [List.takeWhile_cons_of_pos (isWordPart_of_isWordStart hc)]
  dsimp only
  split
  · next kind hk =>
    obtain ⟨before, after, hsplit, _⟩ := List.lookup_eq_some_iff.1 hk
    have hmem : (String.ofList (c :: rest.takeWhile Lexeme.isWordPart), kind) ∈
        Table.standard.keywords := by
      rw [hsplit]
      exact List.mem_append_right _ (List.mem_cons_self ..)
    have hkind := standard_keywords _ hmem
    exact ⟨Nat.succ_pos _, hkind.1, fun _ _ => fits_of_ne hkind⟩
  · exact ⟨Nat.succ_pos _, by simp, fun _ _ =>
      ⟨_, rfl, by rw [Span.length_ofLength, String.length_ofList]⟩⟩

/-- The lexemes of the language have characters and fit their kinds. -/
theorem sound_of_lexeme {l : Lexeme} (h : ofText .standard c rest = lexeme l) : l.Sound := by
  cases ofText_eq_iff.1 h with
  | number _ hc => exact number_sound hc
  | word _ _ hc => exact word_sound hc
  | string => exact ⟨Nat.succ_pos _, by simp, fun _ _ => ⟨_, rfl⟩⟩
  | symbol _ hs =>
    obtain ⟨s, hmem, rfl, _⟩ := Lexeme.symbol?_cases hs
    have hkind := standard_symbols _ hmem
    exact ⟨hkind.1, hkind.2.1, fun _ _ => fits_of_ne hkind.2⟩

/-- Under the table of the language every text begins with white space, a lexeme or a fault. -/
theorem ofText_standard_ne_unmatched : ofText .standard c rest ≠ unmatched := by
  intro h
  cases ofText_eq_iff.1 h with
  | unmatched _ _ ht => exact absurd ht (by decide)

end Reading

end Curly
