import Curly.Proofs.Token.Cutoff
import Mathlib.Data.List.TakeWhile

/-!
# How lexemes are spelled

The lexemes of the language as sets of spellings, with what each of them says. Nothing here depends on
the order in which lexemes are tried or on what stands behind them.

## Main definitions

* `StringReading.Encodes`: the characters between the quotes of a string.
* `Lexeme.Spells`: the spelling of a lexeme.

## Main statements

* `Reading.ofText_iff_spells`: a spelling is read as the lexeme that it spells, and so is nothing else.
* `Lexeme.Spells.read_longer`: in front of more text, a lexeme that is at least as long is read.
-/

namespace Curly

namespace StringReading

/-- The characters that may follow a backslash, and what they stand for there. -/
def escapes : List (Char × Char) :=
  [('n', '\n'), ('t', '\t'), (Quoted.double, Quoted.double), (Quoted.backslash, Quoted.backslash)]

/-- `Encodes chars contents`: between quotes, the characters `chars` say `contents`. A quote or a
backslash does not stand for itself. -/
inductive Encodes : List Char → List Char → Prop where
  | nil : Encodes [] []
  | plain {c chars contents} (hq : c ≠ Quoted.double) (hb : c ≠ Quoted.backslash)
      (h : Encodes chars contents) : Encodes (c :: chars) (c :: contents)
  | escape {c e chars contents} (he : (c, e) ∈ escapes) (h : Encodes chars contents) :
      Encodes (Quoted.backslash :: c :: chars) (e :: contents)

/-- `Stops tail`: the contents of a string do not go on with `tail`. It is a closing quote, a backslash
with a character that makes no escape, the end of the text, or a backslash at this end. -/
inductive Stops : List Char → Prop where
  | quote {tail} : Stops (Quoted.double :: tail)
  | unknown {e tail} (he : ∀ d, (e, d) ∉ escapes) : Stops (Quoted.backslash :: e :: tail)
  | nil : Stops []
  | backslash : Stops [Quoted.backslash]

/-- The reading with more contents in front, written with `width` characters. -/
def behind (contents : List Char) (width : Nat) : StringReading → StringReading
  | closed rest length => closed (contents ++ rest) (length + width)
  | unknownEscape offset e => unknownEscape (offset + width) e
  | unterminated => unterminated

variable {c e : Char} {chars contents text tail : List Char}

theorem escape?_eq_some_iff : escape? c = some e ↔ (c, e) ∈ escapes := by
  unfold escape? escapes
  by_cases hn : c = 'n'
  · subst hn
    simp [Quoted.double, Quoted.backslash, eq_comm]
  by_cases ht : c = 't'
  · subst ht
    simp [Quoted.double, Quoted.backslash, eq_comm]
  by_cases hq : c = Quoted.double
  · subst hq
    simp [Quoted.double, Quoted.backslash, eq_comm]
  by_cases hb : c = Quoted.backslash
  · subst hb
    simp [Quoted.double, Quoted.backslash, eq_comm]
  · simp [hn, ht, hq, hb]

theorem escape?_eq_none_iff : escape? c = none ↔ ∀ e, (c, e) ∉ escapes := by
  rw [Option.eq_none_iff_forall_ne_some]
  exact forall_congr' fun e => not_congr escape?_eq_some_iff

theorem ofText_cons_plain (hq : c ≠ Quoted.double) (hb : c ≠ Quoted.backslash)
    (text : List Char) : ofText (c :: text) = (ofText text).cons c 1 := by
  cases text with
  | nil => exact if_neg hq
  | cons d text => rw [ofText, if_neg hq, if_neg hb]

theorem ofText_cons_escape (he : (c, e) ∈ escapes) (text : List Char) :
    ofText (Quoted.backslash :: c :: text) = (ofText text).cons e 2 := by
  rw [ofText, if_neg (by decide), if_pos rfl, escape?_eq_some_iff.2 he]

/-- Contents are read up to where they stop. -/
theorem Encodes.ofText_append (h : Encodes chars contents) (tail : List Char) :
    ofText (chars ++ tail) = (ofText tail).behind contents chars.length := by
  induction h with
  | nil => cases hr : ofText tail <;> simp [behind, hr]
  | plain hq hb _ ih =>
    rw [List.cons_append, ofText_cons_plain hq hb, ih]
    cases ofText tail <;> simp [behind, cons, Nat.add_assoc]
  | escape he _ ih =>
    rw [List.cons_append, List.cons_append, ofText_cons_escape he, ih]
    cases ofText tail <;> simp [behind, cons, Nat.add_assoc]

/-- Every text begins with contents of a string, and somewhere they stop. -/
theorem exists_encodes (text : List Char) :
    ∃ chars contents tail, Encodes chars contents ∧ Stops tail ∧ text = chars ++ tail := by
  induction text using ofText.induct with
  | case1 => exact ⟨[], [], [], .nil, .nil, rfl⟩
  | case2 => exact ⟨[], [], _, .nil, .quote, rfl⟩
  | case3 c hq =>
    by_cases hb : c = Quoted.backslash
    · subst hb
      exact ⟨[], [], _, .nil, .backslash, rfl⟩
    · exact ⟨[c], [c], [], .plain hq hb .nil, .nil, rfl⟩
  | case4 d rest => exact ⟨[], [], _, .nil, .quote, rfl⟩
  | case5 d rest e he _ ih =>
    obtain ⟨chars, contents, tail, h, hstops, rfl⟩ := ih
    exact ⟨_, _, tail, .escape (escape?_eq_some_iff.1 he) h, hstops, rfl⟩
  | case6 d rest he => exact ⟨[], [], _, .nil, .unknown (escape?_eq_none_iff.1 he), rfl⟩
  | case7 c d rest hq hb ih =>
    obtain ⟨chars, contents, tail, h, hstops, heq⟩ := ih
    exact ⟨c :: chars, c :: contents, tail, .plain hq hb h, hstops, by rw [heq]; rfl⟩

theorem ofText_quote (tail : List Char) : ofText (Quoted.double :: tail) = closed [] 1 := by
  cases tail with
  | nil => rw [ofText, if_pos rfl]
  | cons d tail => rw [ofText, if_pos rfl]

theorem ofText_unknown (he : ∀ d, (e, d) ∉ escapes) (tail : List Char) :
    ofText (Quoted.backslash :: e :: tail) = unknownEscape 0 e := by
  rw [ofText, if_neg (by decide), if_pos rfl, escape?_eq_none_iff.2 he]

theorem ofText_backslash : ofText [Quoted.backslash] = unterminated := rfl

/-- A string is closed by the first quote that stands for itself. -/
theorem ofText_eq_closed_iff {n : Nat} : ofText text = closed contents n ↔
    ∃ chars tail, text = chars ++ Quoted.double :: tail ∧ Encodes chars contents ∧
      n = chars.length + 1 := by
  constructor
  · intro h
    obtain ⟨chars, contents', tail, hencodes, hstops, rfl⟩ := exists_encodes text
    rw [hencodes.ofText_append] at h
    cases hstops with
    | @quote tail =>
      rw [ofText_quote, behind, List.append_nil] at h
      cases h
      exact ⟨chars, tail, rfl, hencodes, Nat.add_comm 1 _⟩
    | unknown he =>
      rw [ofText_unknown he] at h
      cases h
    | nil => cases h
    | backslash => cases h
  · rintro ⟨chars, tail, rfl, h, rfl⟩
    rw [h.ofText_append, ofText_quote, behind, List.append_nil, Nat.add_comm]

/-- A string has a fault at its first backslash that makes no escape. -/
theorem ofText_eq_unknownEscape_iff {n : Nat} : ofText text = unknownEscape n e ↔
    ∃ chars contents tail, text = chars ++ Quoted.backslash :: e :: tail ∧
      Encodes chars contents ∧ (∀ d, (e, d) ∉ escapes) ∧ n = chars.length := by
  constructor
  · intro h
    obtain ⟨chars, contents, tail, hencodes, hstops, rfl⟩ := exists_encodes text
    rw [hencodes.ofText_append] at h
    cases hstops with
    | quote =>
      rw [ofText_quote] at h
      cases h
    | unknown he =>
      rw [ofText_unknown he, behind] at h
      cases h
      exact ⟨chars, contents, _, rfl, hencodes, he, Nat.zero_add _⟩
    | nil => cases h
    | backslash => cases h
  · rintro ⟨chars, contents, tail, rfl, h, he, rfl⟩
    rw [h.ofText_append, ofText_unknown he, behind, Nat.zero_add]

/-- A string is never closed if all characters up to the end of the text belong to its contents, or all
but a last backslash. -/
theorem ofText_eq_unterminated_iff : ofText text = unterminated ↔
    ∃ chars contents, Encodes chars contents ∧
      (text = chars ∨ text = chars ++ [Quoted.backslash]) := by
  constructor
  · intro h
    obtain ⟨chars, contents, tail, hencodes, hstops, rfl⟩ := exists_encodes text
    rw [hencodes.ofText_append] at h
    cases hstops with
    | quote =>
      rw [ofText_quote] at h
      cases h
    | unknown he =>
      rw [ofText_unknown he] at h
      cases h
    | nil => exact ⟨chars, contents, hencodes, .inl (List.append_nil chars)⟩
    | backslash => exact ⟨chars, contents, hencodes, .inr rfl⟩
  · rintro ⟨chars, contents, h, rfl | rfl⟩
    · have hnil := h.ofText_append []
      rwa [List.append_nil] at hnil
    · rw [h.ofText_append, ofText_backslash, behind]

end StringReading

namespace Lexeme

/-- `Spells chars kind payload`: the characters spell a lexeme of the language of the given kind, which
says the payload. -/
inductive Spells : List Char → TokenKind → Payload → Prop where
  | whole {digits} (hne : digits ≠ []) (hdigits : ∀ c ∈ digits, c.isDigit = true) :
      Spells digits .number (.number (Float.ofScientific (naturalOf digits) false 0))
  | decimal {digits fraction} (hne : digits ≠ []) (hdigits : ∀ c ∈ digits, c.isDigit = true)
      (hne' : fraction ≠ []) (hfraction : ∀ c ∈ fraction, c.isDigit = true) :
      Spells (digits ++ '.' :: fraction) .number
        (.number (Float.ofScientific (naturalOf (digits ++ fraction)) true fraction.length))
  | keyword {c chars kind} (hc : isWordStart c = true) (hchars : ∀ d ∈ chars, isWordPart d = true)
      (h : (String.ofList (c :: chars), kind) ∈ Table.standard.keywords) :
      Spells (c :: chars) kind .none
  | identifier {c chars} (hc : isWordStart c = true) (hchars : ∀ d ∈ chars, isWordPart d = true)
      (h : ∀ kind, (String.ofList (c :: chars), kind) ∉ Table.standard.keywords) :
      Spells (c :: chars) .identifier (.name (String.ofList (c :: chars)))
  | string {chars contents} (h : StringReading.Encodes chars contents) :
      Spells (Quoted.double :: (chars ++ [Quoted.double])) .string
        (.string (String.ofList contents))
  | symbol {s kind} (h : (s, kind) ∈ Table.standard.symbols) : Spells s.toList kind .none

/-- Each word of the table has one kind. -/
theorem standard_keyword? : ∀ p ∈ Table.standard.keywords,
    Table.standard.keyword? p.1 = some p.2 := by
  decide

/-- No symbol of the table begins with another one that is spelled alike. -/
theorem standard_symbol? : ∀ p ∈ Table.standard.symbols,
    symbol? .standard p.1.toList = some (p.1.toList, p.2) := by
  decide

/-- Symbols begin with characters that begin nothing else. -/
theorem standard_symbols_head : ∀ p ∈ Table.standard.symbols, ∀ c ∈ p.1.toList.head?,
    isSpace c = false ∧ c.isDigit = false ∧ isWordStart c = false ∧ c ≠ Quoted.double := by
  have hall : ∀ p ∈ Table.standard.symbols, p.1.toList.head?.all fun c =>
      !isSpace c && !c.isDigit && !isWordStart c && c != Quoted.double := by
    decide
  intro p hp c hc
  simpa [and_assoc] using (Option.all_eq_true _ _).1 (hall p hp) c hc

section

variable {c : Char} {text digits fraction more : List Char}

/-- What holds of no white space holds of other characters only. -/
theorem not_isSpace_of {p : Char → Bool} (hspace : p ' ' = false) (htab : p '\t' = false)
    (hreturn : p '\r' = false) (h : p c = true) : isSpace c = false := by
  refine Bool.eq_false_iff.2 fun hs => ?_
  simp only [isSpace, Bool.or_eq_true, decide_eq_true_eq] at hs
  rcases hs with (rfl | rfl) | rfl
  · exact Bool.false_ne_true (hspace.symm.trans h)
  · exact Bool.false_ne_true (htab.symm.trans h)
  · exact Bool.false_ne_true (hreturn.symm.trans h)

theorem not_isSpace_of_isDigit (h : c.isDigit = true) : isSpace c = false :=
  not_isSpace_of rfl rfl rfl h

theorem not_isSpace_of_isWordStart (h : isWordStart c = true) : isSpace c = false :=
  not_isSpace_of rfl rfl rfl h

theorem not_isDigit_of_isWordStart (h : isWordStart c = true) : c.isDigit = false := by
  refine Bool.eq_false_iff.2 fun hd => ?_
  have hnine : c.val ≤ '9'.val := by
    simp only [Char.isDigit, Bool.and_eq_true, decide_eq_true_eq] at hd
    exact hd.2
  rcases Bool.or_eq_true_iff.1 h with hletter | hunderscore
  · -- Letters come after the digits.
    rcases Bool.or_eq_true_iff.1 hletter with hupper | hlower
    · exact absurd (UInt32.le_trans (of_decide_eq_true hupper).1 hnine) (by decide)
    · have hle := of_decide_eq_true (Bool.and_eq_true_iff.1 hlower).1
      exact absurd (UInt32.le_trans hle hnine) (by decide)
  · obtain rfl := of_decide_eq_true hunderscore
    exact absurd hd (by decide)

/-- Digits alone are a number without a fraction. -/
theorem number_whole (h : ∀ c ∈ digits, c.isDigit = true) : number digits =
    ⟨.number, .number (Float.ofScientific (naturalOf digits) false 0), digits.length⟩ := by
  have htake : digits.takeWhile Char.isDigit = digits := List.takeWhile_eq_self_iff.2 h
  have hdrop : digits.dropWhile Char.isDigit = [] := List.dropWhile_eq_nil_iff.2 h
  simp [number, htake, hdrop, fractionOf]

/-- Digits, a point and digits are a number with a fraction, to which all digits that follow belong. -/
theorem number_decimal (h : ∀ c ∈ digits, c.isDigit = true)
    (hfraction : ∀ c ∈ fraction, c.isDigit = true) (hne : fraction ≠ []) (more : List Char) :
    number (digits ++ '.' :: (fraction ++ more)) =
      ⟨.number, .number (Float.ofScientific
          (naturalOf (digits ++ (fraction ++ more.takeWhile Char.isDigit))) true
          (fraction ++ more.takeWhile Char.isDigit).length),
        digits.length + 1 + (fraction ++ more.takeWhile Char.isDigit).length⟩ := by
  have hpoint : ¬('.' : Char).isDigit = true := by decide
  have htake : (digits ++ '.' :: (fraction ++ more)).takeWhile Char.isDigit = digits := by
    rw [List.takeWhile_append_of_pos h, List.takeWhile_cons_of_neg hpoint, List.append_nil]
  have hdrop : (digits ++ '.' :: (fraction ++ more)).dropWhile Char.isDigit =
      '.' :: (fraction ++ more) := by
    rw [List.dropWhile_append_of_pos h, List.dropWhile_cons_of_neg hpoint]
  have hdigits : fractionOf ('.' :: (fraction ++ more)) =
      fraction ++ more.takeWhile Char.isDigit := by
    rw [fractionOf, List.takeWhile_append_of_pos hfraction]
  have hempty : (fraction ++ more.takeWhile Char.isDigit).isEmpty = false := by
    simp [hne]
  unfold number
  rw [htake, hdrop, hdigits]
  dsimp only
  rw [if_neg (by rw [hempty]; exact Bool.false_ne_true)]

/-- A number begins with all digits at the beginning of the text. -/
theorem length_takeWhile_le_number (text : List Char) :
    (text.takeWhile Char.isDigit).length ≤ (number text).length := by
  unfold number
  dsimp only
  split
  · exact Nat.le_refl _
  · dsimp only
    omega

theorem takeWhile_word (hc : isWordStart c = true) (h : ∀ d ∈ text, isWordPart d = true) :
    (c :: text).takeWhile isWordPart = c :: text :=
  List.takeWhile_eq_self_iff.2
    (List.forall_mem_cons.2 ⟨Reading.isWordPart_of_isWordStart hc, h⟩)

theorem length_word (table : Table) (text : List Char) :
    (word table text).length = (text.takeWhile isWordPart).length := by
  unfold word
  dsimp only
  split <;> rfl

end

/-- A spelling is read as what it spells. -/
theorem Spells.read {chars : List Char} {kind : TokenKind} {payload : Payload}
    (h : Spells chars kind payload) {c : Char} {rest : List Char} (hchars : chars = c :: rest) :
    Reading.ofText .standard c rest = .lexeme ⟨kind, payload, chars.length⟩ := by
  refine Reading.ofText_eq_iff.2 ?_
  cases h with
  | whole _ hdigits =>
    have hc : c.isDigit = true := hdigits c (by simp [hchars])
    rw [← number_whole hdigits, hchars]
    exact .number (not_isSpace_of_isDigit hc) hc
  | @decimal digits fraction hne hdigits hne' hfraction =>
    obtain ⟨d, ds, rfl⟩ := List.exists_cons_of_ne_nil hne
    obtain rfl : d = c := (List.cons.inj hchars).1
    have hc : d.isDigit = true := hdigits d (List.mem_cons_self ..)
    have hnumber := number_decimal hdigits hfraction hne' []
    have hlength : (d :: ds ++ '.' :: fraction).length =
        (d :: ds).length + 1 + fraction.length := by
      simp only [List.length_append, List.length_cons]
      omega
    rw [List.takeWhile_nil, List.append_nil] at hnumber
    rw [hlength, ← hnumber, hchars]
    exact .number (not_isSpace_of_isDigit hc) hc
  | @keyword d ds kind hc hparts hkind =>
    obtain ⟨rfl, rfl⟩ := List.cons.inj hchars
    have hword : word .standard (d :: ds) = ⟨kind, .none, (d :: ds).length⟩ := by
      unfold word
      rw [takeWhile_word hc hparts]
      dsimp only
      rw [standard_keyword? _ hkind]
    rw [← hword]
    exact .word (not_isSpace_of_isWordStart hc) (not_isDigit_of_isWordStart hc) hc
  | @identifier d ds hc hparts hkind =>
    obtain ⟨rfl, rfl⟩ := List.cons.inj hchars
    have hnone : Table.standard.keyword? (String.ofList (d :: ds)) = none := by
      refine List.lookup_eq_none_iff.2 fun p hp => ?_
      refine bne_iff_ne.2 fun heq => hkind p.2 ?_
      rw [heq]
      exact hp
    have hword : word .standard (d :: ds) =
        ⟨.identifier, .name (String.ofList (d :: ds)), (d :: ds).length⟩ := by
      unfold word
      rw [takeWhile_word hc hparts]
      dsimp only
      rw [hnone]
    rw [← hword]
    exact .word (not_isSpace_of_isWordStart hc) (not_isDigit_of_isWordStart hc) hc
  | @string chars contents h =>
    obtain ⟨rfl, rfl⟩ := List.cons.inj hchars
    rw [List.length_cons, List.length_append, List.length_singleton]
    exact .string rfl (StringReading.ofText_eq_closed_iff.2 ⟨chars, [], rfl, h, rfl⟩)
  | @symbol s kind h =>
    have hsymbol := standard_symbol? _ h
    rw [hchars] at hsymbol ⊢
    refine .symbol (standard_symbols_head _ h c ?_) hsymbol
    rw [hchars]
    rfl

theorem mem_of_append_eq_cons {chars more rest : List Char} {c : Char} (hne : chars ≠ [])
    (h : chars ++ more = c :: rest) : c ∈ chars := by
  obtain ⟨d, ds, rfl⟩ := List.exists_cons_of_ne_nil hne
  obtain rfl : d = c := (List.cons.inj h).1
  exact List.mem_cons_self ..

/-- In front of more text, a spelling is read as a lexeme that is at least as long. -/
theorem Spells.read_longer {chars : List Char} {kind : TokenKind} {payload : Payload}
    (h : Spells chars kind payload) {more : List Char} {c : Char} {rest : List Char}
    (hchars : chars ++ more = c :: rest) :
    ∃ l, Reading.ofText .standard c rest = .lexeme l ∧ chars.length ≤ l.length := by
  have word : ∀ {d ds}, d :: ds ++ more = c :: rest → isWordStart d = true →
      (∀ e ∈ ds, isWordPart e = true) →
      ∃ l, Reading.ofText .standard c rest = .lexeme l ∧ (d :: ds).length ≤ l.length := by
    intro d ds hchars hd hparts
    obtain rfl : d = c := (List.cons.inj hchars).1
    refine ⟨_, (Reading.Begins.word (not_isSpace_of_isWordStart hd)
      (not_isDigit_of_isWordStart hd) hd).eq, ?_⟩
    have hall : ∀ e ∈ d :: ds, isWordPart e = true :=
      List.forall_mem_cons.2 ⟨Reading.isWordPart_of_isWordStart hd, hparts⟩
    rw [length_word, ← hchars, List.takeWhile_append_of_pos hall, List.length_append]
    exact Nat.le_add_right _ _
  cases h with
  | whole hne hdigits =>
    have hc : c.isDigit = true := hdigits c (mem_of_append_eq_cons hne hchars)
    refine ⟨_, (Reading.Begins.number (not_isSpace_of_isDigit hc) hc).eq, ?_⟩
    refine Nat.le_trans ?_ (length_takeWhile_le_number _)
    rw [← hchars, List.takeWhile_append_of_pos hdigits, List.length_append]
    exact Nat.le_add_right _ _
  | @decimal digits fraction hne hdigits hne' hfraction =>
    rw [List.append_assoc, List.cons_append] at hchars
    have hc : c.isDigit = true := hdigits c (mem_of_append_eq_cons hne hchars)
    refine ⟨_, (Reading.Begins.number (not_isSpace_of_isDigit hc) hc).eq, ?_⟩
    rw [← hchars, number_decimal hdigits hfraction hne' more]
    simp only [List.length_append, List.length_cons]
    omega
  | keyword hd hparts => exact word hchars hd hparts
  | identifier hd hparts => exact word hchars hd hparts
  | @string chars contents h =>
    rw [List.cons_append, List.append_assoc] at hchars
    obtain ⟨rfl, rfl⟩ := List.cons.inj hchars
    refine ⟨_, (Reading.Begins.string rfl
      (StringReading.ofText_eq_closed_iff.2 ⟨chars, more, rfl, h, rfl⟩)).eq, ?_⟩
    simp
  | @symbol s kind h =>
    have hhead : c ∈ s.toList.head? := by
      obtain ⟨d, ds, hs⟩ := List.exists_cons_of_ne_nil (standard_symbols_tail _ h).1
      rw [hs] at hchars ⊢
      rw [(List.cons.inj hchars).1]
      rfl
    cases hfound : symbol? .standard (c :: rest) with
    | none => exact absurd ⟨more, hchars⟩ (symbol?_eq_none_iff.1 hfound (s, kind) h)
    | some found =>
      exact ⟨_, (Reading.Begins.symbol (standard_symbols_head _ h c hhead) hfound).eq,
        symbol?_longest hfound (s, kind) h ⟨more, hchars⟩⟩

end Lexeme

namespace Reading

open Lexeme

variable {c : Char} {rest : List Char}

/-- What is read to the end of the text is spelled there. -/
theorem spells_of_lexeme {l : Lexeme} (h : ofText .standard c rest = lexeme l)
    (hl : l.length = (c :: rest).length) : Spells (c :: rest) l.kind l.payload := by
  cases ofText_eq_iff.1 h with
  | number hs hc =>
    by_cases hfraction : fractionOf ((c :: rest).dropWhile Char.isDigit) = []
    · have hwhole : ((c :: rest).takeWhile Char.isDigit).length = (c :: rest).length := by
        unfold number at hl
        rw [hfraction] at hl
        exact hl
      have hdigits := List.takeWhile_eq_self_iff.1
        ((List.takeWhile_prefix Char.isDigit).eq_of_length hwhole)
      rw [number_whole hdigits]
      exact .whole (List.cons_ne_nil _ _) hdigits
    · have happend : (c :: rest) ++ [] = c :: rest := List.append_nil _
      obtain ⟨digits, fraction, hchars, hwhole, hfractional⟩ :=
        number_fraction (by rwa [happend]) (by rwa [happend])
      rw [happend, hchars] at hwhole
      have hdigits := all_of_takeWhile_length hwhole
      have hfraction' := all_of_takeWhile_length hfractional
      have hne : digits ≠ [] := by
        rintro rfl
        rw [(List.cons.inj hchars).1] at hc
        cases hc
      have hne' : fraction ≠ [] := by
        rintro rfl
        rw [hchars, List.dropWhile_append_of_pos hdigits] at hfraction
        exact hfraction rfl
      have hnumber := number_decimal hdigits hfraction' hne' []
      rw [List.takeWhile_nil, List.append_nil] at hnumber
      rw [hchars, hnumber]
      exact .decimal hne hdigits hne' hfraction'
  | word hs hd hc =>
    rw [length_word] at hl
    have hall := (List.takeWhile_prefix isWordPart).eq_of_length hl
    have hparts : ∀ d ∈ rest, isWordPart d = true :=
      (List.forall_mem_cons.1 (List.takeWhile_eq_self_iff.1 hall)).2
    unfold word
    rw [hall]
    dsimp only
    split
    · next kind hkind =>
      obtain ⟨before, after, hsplit, -⟩ := List.lookup_eq_some_iff.1 hkind
      refine .keyword hc hparts ?_
      rw [hsplit]
      exact List.mem_append_right _ (List.mem_cons_self ..)
    · next hnone =>
      refine .identifier hc hparts fun kind hmem => ?_
      rw [standard_keyword? _ hmem] at hnone
      cases hnone
  | @string contents n hc hr =>
    obtain ⟨chars, tail, rfl, hencodes, rfl⟩ := StringReading.ofText_eq_closed_iff.1 hr
    have hlength : chars.length + 1 + 1 = (c :: (chars ++ Quoted.double :: tail)).length := hl
    obtain rfl : tail = [] := by
      simp only [List.length_cons, List.length_append] at hlength
      exact List.eq_nil_of_length_eq_zero (by omega)
    subst hc
    exact .string hencodes
  | symbol hc hs =>
    obtain ⟨s, hmem, rfl, hprefix⟩ := symbol?_cases hs
    have hchars : s.toList = c :: rest := hprefix.eq_of_length hl
    rw [← hchars]
    exact .symbol hmem

/-- **Spelling.** Characters spell a lexeme if and only if they are read as this lexeme, to their end. -/
theorem ofText_iff_spells {kind : TokenKind} {payload : Payload} :
    ofText .standard c rest = lexeme ⟨kind, payload, (c :: rest).length⟩ ↔
      Spells (c :: rest) kind payload :=
  ⟨fun h => spells_of_lexeme h rfl, fun h => h.read rfl⟩

end Reading

end Curly
