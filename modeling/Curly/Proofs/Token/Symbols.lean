import Curly.Proofs.Token.Spelled

/-!
# Symbols under any table

Where neither white space nor a number, a word or a string begins, the longest symbol of the table is
taken, whatever symbols the table has and in whatever order it lists them.

## Main definitions

* `Table.Distinct`: no word and no symbol is listed twice.
* `Table.Reordered`: two tables list the same words and symbols.
* `Lexeme.LongestSymbol`: the longest symbol of a table that begins a text.
* `Stream.ofTextAt`: the stream of a text from a position on.

## Main statements

* `Table.distinct_of_ofDescription`: tables that are described list nothing twice.
* `Lexeme.symbol?_eq_some_iff_longest`: the symbol that is found is the longest.
* `Reading.ofText_reordered`: the order of the entries does not matter.
* `Stream.ofText_takes_longest_symbols`: the stream of a text under any table.
-/

namespace Curly

namespace Table

/-- No word and no symbol is listed twice. -/
structure Distinct (t : Table) : Prop where
  keywords : (t.keywords.map Prod.fst).Nodup
  symbols : (t.symbols.map Prod.fst).Nodup

/-- The tables list the same words and symbols with the same kinds, perhaps in another order. -/
structure Reordered (t t' : Table) : Prop where
  keywords : t.keywords.Perm t'.keywords
  symbols : t.symbols.Perm t'.symbols

section Entries

variable {α β : Type} [DecidableEq α] {entries entries' : List (α × β)} {key : α} {value : β}

/-- Where no key is listed twice, a key has the values that it is listed with. -/
theorem lookup_eq_some_iff_mem (h : (entries.map Prod.fst).Nodup) :
    entries.lookup key = some value ↔ (key, value) ∈ entries := by
  induction entries with
  | nil => simp
  | cons entry entries ih =>
    obtain ⟨k, v⟩ := entry
    rw [List.map_cons, List.nodup_cons] at h
    rw [List.lookup_cons, List.mem_cons, Prod.mk.injEq]
    by_cases hk : key = k
    · subst hk
      have hother : (key, value) ∉ entries := fun hmem => h.1 (List.mem_map.2 ⟨_, hmem, rfl⟩)
      simp [hother, eq_comm]
    · rw [beq_false_of_ne hk]
      simp [hk, ih h.2]

/-- The order of the entries does not matter to what is looked up. -/
theorem lookup_perm (h : (entries.map Prod.fst).Nodup) ( hperm : entries.Perm entries') (key : α) :
    entries.lookup key = entries'.lookup key := by
  have h' : (entries'.map Prod.fst).Nodup := (hperm.map Prod.fst).nodup_iff.1 h
  refine Option.ext fun value => ?_
  rw [lookup_eq_some_iff_mem h, lookup_eq_some_iff_mem h', hperm.mem_iff]

/-- An assignment lists the key at the end, unless it is listed already. -/
theorem map_fst_assign (key : α) (value : β) (entries : List (α × β)) :
    (assign key value entries).map Prod.fst =
      if key ∈ entries.map Prod.fst then entries.map Prod.fst else entries.map Prod.fst ++ [key] := by
  induction entries with
  | nil => rfl
  | cons entry entries ih =>
    obtain ⟨k, v⟩ := entry
    rw [assign]
    by_cases hk : k = key
    · subst hk
      simp
    · rw [if_neg hk, List.map_cons, ih]
      split <;> simp_all [Ne.symm hk]

theorem nodup_assign (h : (entries.map Prod.fst).Nodup) :
    ((assign key value entries).map Prod.fst).Nodup := by
  rw [map_fst_assign]
  split
  · exact h
  · next hkey =>
    refine List.nodup_append.2 ⟨h, List.pairwise_singleton _ key, fun k hk k' hk' => ?_⟩
    rw [List.mem_singleton.1 hk']
    rintro rfl
    exact hkey hk

end Entries

/-- What holds at the beginning and is kept by every step holds at the end. -/
theorem foldlM_keeps {α β ε : Type} {P : β → Prop} {f : β → α → Except ε β}
    (hf : ∀ b a b', P b → f b a = .ok b' → P b') {as : List α} {b found : β} (hb : P b)
    (h : as.foldlM f b = .ok found) : P found := by
  induction as generalizing b with
  | nil =>
    cases h
    exact hb
  | cons a as ih =>
    rw [List.foldlM_cons] at h
    cases hstep : f b a with
    | error =>
      rw [hstep] at h
      cases h
    | ok b' =>
      rw [hstep] at h
      exact ih (hf b a b' hb hstep) h

/-- What is read of a section lists no text twice. -/
theorem nodup_entriesOf {entries : List (String × String)} {found : List (String × TokenKind)}
    (h : entriesOf entries = .ok found) : (found.map Prod.fst).Nodup := by
  refine foldlM_keeps (P := fun done => (done.map Prod.fst).Nodup) ?_ List.nodup_nil h
  rintro done ⟨text, name⟩ done' hdone hstep
  dsimp only at hstep
  cases hkind : kindOf name with
  | error =>
    rw [hkind] at hstep
    cases hstep
  | ok kind =>
    rw [hkind] at hstep
    cases hstep
    exact nodup_assign hdone

/-- Tables that are described list nothing twice. -/
theorem distinct_of_ofDescription {d : Description} {table : Table}
    (h : ofDescription d = .ok table) : table.Distinct := by
  have step : ∀ {α β : Type} {x : Except DescriptionFault α} {f : α → Except DescriptionFault β} {b : β},
      x >>= f = .ok b → ∃ a, x = .ok a ∧ f a = .ok b := by
    intro α β x f b hb
    cases x with
    | error => cases hb
    | ok a => exact ⟨a, rfl, hb⟩
  unfold ofDescription at h
  obtain ⟨words, -, h⟩ := step h
  obtain ⟨keywords, hkeywords, h⟩ := step h
  obtain ⟨marks, -, h⟩ := step h
  obtain ⟨symbols, hsymbols, h⟩ := step h
  obtain ⟨levels, -, h⟩ := step h
  obtain ⟨powers, -, h⟩ := step h
  obtain ⟨signs, -, h⟩ := step h
  obtain ⟨unary, -, h⟩ := step h
  cases h
  exact ⟨nodup_entriesOf hkeywords, nodup_entriesOf hsymbols⟩

end Table

namespace Lexeme

/-- The symbol is listed with the kind, the text begins with it, and it begins with no longer one. -/
structure LongestSymbol (table : Table) (text : List Char) (s : String) (kind : TokenKind) : Prop where
  listed : (s, kind) ∈ table.symbols
  begins : s.toList <+: text
  longest : ∀ p ∈ table.symbols, p.1.toList <+: text → p.1.toList.length ≤ s.toList.length

variable {table table' : Table} {text : List Char} {s s' : String} {kind kind' : TokenKind}

theorem LongestSymbol.unique (ht : table.Distinct) (h : LongestSymbol table text s kind)
    (h' : LongestSymbol table text s' kind') : s = s' ∧ kind = kind' := by
  have hlength : s.toList.length = s'.toList.length :=
    Nat.le_antisymm (h'.longest _ h.listed h.begins) (h.longest _ h'.listed h'.begins)
  obtain rfl : s = s' := String.toList_inj.1
    ((List.prefix_of_prefix_length_le h.begins h'.begins (Nat.le_of_eq hlength)).eq_of_length hlength)
  have hkind := (Table.lookup_eq_some_iff_mem ht.symbols).2 h.listed
  exact ⟨rfl, Option.some.inj (hkind.symm.trans ((Table.lookup_eq_some_iff_mem ht.symbols).2 h'.listed))⟩

theorem exists_longestSymbol {chars : List Char} (h : symbol? table text = some (chars, kind)) :
    ∃ s, s.toList = chars ∧ LongestSymbol table text s kind := by
  obtain ⟨s, hs, rfl, hbegins⟩ := symbol?_cases h
  exact ⟨s, rfl, hs, hbegins, symbol?_longest h⟩

/-- The symbol that is found is the longest that begins the text. -/
theorem symbol?_eq_some_iff_longest (ht : table.Distinct) :
    symbol? table text = some (s.toList, kind) ↔ LongestSymbol table text s kind := by
  constructor
  · intro h
    obtain ⟨s', hs', hlongest⟩ := exists_longestSymbol h
    rwa [String.toList_inj.1 hs'] at hlongest
  · intro h
    cases hfound : symbol? table text with
    | none => exact absurd h.begins (symbol?_eq_none_iff.1 hfound _ h.listed)
    | some found =>
      obtain ⟨s', hs', hlongest⟩ := exists_longestSymbol hfound
      obtain ⟨rfl, rfl⟩ := h.unique ht hlongest
      rw [hs']

theorem LongestSymbol.reordered (h : LongestSymbol table text s kind)
    (ht : table.Reordered table') : LongestSymbol table' text s kind :=
  ⟨ht.symbols.mem_iff.1 h.listed, h.begins, fun p hp => h.longest p (ht.symbols.mem_iff.2 hp)⟩

theorem symbol?_reordered (ht : table.Distinct) (h : table.Reordered table') (text : List Char) :
    symbol? table' text = symbol? table text := by
  have ht' : table'.Distinct := ⟨(h.keywords.map Prod.fst).nodup_iff.1 ht.keywords,
    (h.symbols.map Prod.fst).nodup_iff.1 ht.symbols⟩
  cases hfound : symbol? table text with
  | none =>
    rw [symbol?_eq_none_iff] at hfound ⊢
    exact fun p hp => hfound p (h.symbols.mem_iff.2 hp)
  | some found =>
    obtain ⟨chars, kind⟩ := found
    obtain ⟨s, rfl, hlongest⟩ := exists_longestSymbol hfound
    exact (symbol?_eq_some_iff_longest ht').2 (hlongest.reordered h)

end Lexeme

namespace Reading

open Lexeme

variable {table table' : Table} {c : Char} {rest : List Char}

/-- Where nothing else begins, the longest symbol is read, or there is a fault and no symbol. -/
theorem ofText_symbolic (hsome : table.symbols ≠ []) (hc : Symbolic c) (rest : List Char) :
    (∃ s kind, LongestSymbol table (c :: rest) s kind ∧
      ofText table c rest = lexeme ⟨kind, .none, s.toList.length⟩) ∨
    (∀ p ∈ table.symbols, ¬p.1.toList <+: c :: rest) ∧
      ofText table c rest = fault (.unexpectedCharacter c) 0 1 := by
  cases hfound : symbol? table (c :: rest) with
  | none =>
    have ht : table.symbols.isEmpty = false := by simpa using hsome
    exact .inr ⟨symbol?_eq_none_iff.1 hfound, (Begins.unexpected hc hfound ht).eq⟩
  | some found =>
    obtain ⟨chars, kind⟩ := found
    obtain ⟨s, rfl, hlongest⟩ := exists_longestSymbol hfound
    exact .inl ⟨s, kind, hlongest, (Begins.symbol hc hfound).eq⟩

/-- The order in which a table lists its entries does not matter to what is read. -/
theorem ofText_reordered (ht : table.Distinct) (h : table.Reordered table') :
    ofText table' c rest = ofText table c rest := by
  have hword : word table' (c :: rest) = word table (c :: rest) := by
    unfold word Table.keyword?
    dsimp only
    rw [Table.lookup_perm ht.keywords h.keywords]
  have hempty : table'.symbols.isEmpty = table.symbols.isEmpty := by
    rw [Bool.eq_iff_iff, List.isEmpty_iff_length_eq_zero, List.isEmpty_iff_length_eq_zero,
      h.symbols.length_eq]
  unfold ofText
  dsimp only
  rw [hword, symbol?_reordered ht h, hempty]

/-- Lexemes have characters if symbols do. -/
theorem length_pos_of_lexeme {l : Lexeme} (hempty : ∀ p ∈ table.symbols, p.1 ≠ "")
    (h : ofText table c rest = lexeme l) : 0 < l.length := by
  cases ofText_eq_iff.1 h with
  | number _ hc => exact (number_sound hc).length_pos
  | word _ _ hc =>
    rw [length_word, List.takeWhile_cons_of_pos (isWordPart_of_isWordStart hc)]
    exact Nat.succ_pos _
  | string => exact Nat.succ_pos _
  | symbol _ hs =>
    obtain ⟨s, hmem, rfl, -⟩ := symbol?_cases hs
    refine Nat.pos_of_ne_zero fun hlength => hempty _ hmem ?_
    exact String.toList_eq_nil_iff.1 (List.eq_nil_of_length_eq_zero hlength)

end Reading

namespace Stream

open Lexeme

variable {table table' : Table} {offset : Nat} {text : List Char} {s : Stream}

/-- The stream of a text from a position on. -/
def ofTextAt (table : Table) (text : List Char) (position : Nat) : Stream :=
  scan table 0 position (text.drop position)

theorem ofTextAt_cuts (table : Table) (text : List Char) (position : Nat) :
    Cuts table position (text.drop position) (ofTextAt table text position) :=
  scan_cuts (Nat.zero_le _)

theorem Cuts.eq_ofTextAt {position : Nat} (h : Cuts table position (text.drop position) s) :
    ofTextAt table text position = s :=
  (ofTextAt_cuts table text position).unique h

/-- What stands behind the place of a fault is not looked at before. -/
theorem Cuts.drop_failed {begins : Nat} {e : LexError} (h : Cuts table offset text s)
    (hs : s.ending = .failed begins e) :
    offset ≤ begins ∧ Cuts table begins (text.drop (begins - offset)) ⟨[], .failed begins e⟩ := by
  have behind : ∀ {offset n : Nat} {text : List Char}, offset + n ≤ begins →
      (text.drop n).drop (begins - (offset + n)) = text.drop (begins - offset) := by
    intro offset n text hle
    rw [List.drop_drop]
    congr 1
    omega
  induction h with
  | space hr _ ih =>
    obtain ⟨hle, hcut⟩ := ih hs
    rw [behind hle] at hcut
    exact ⟨Nat.le_trans (Nat.le_add_right _ _) hle, hcut⟩
  | lexeme hr hl _ ih =>
    obtain ⟨hle, hcut⟩ := ih hs
    rw [behind hle] at hcut
    exact ⟨Nat.le_trans (Nat.le_add_right _ _) hle, hcut⟩
  | fault hr =>
    cases hs
    rw [Nat.sub_self]
    exact ⟨Nat.le_refl _, .fault hr⟩
  | _ => cases hs

/-- Every token but the end of input takes up a character at least. -/
theorem Cuts.length_tokens_le (h : Cuts table offset text s) : s.tokens.length ≤ text.length + 1 := by
  induction h with
  | done => exact Nat.le_refl _
  | space hr _ ih =>
    rw [List.length_drop] at ih
    omega
  | lexeme hr hl _ ih =>
    have hle := Reading.le_of_lexeme hr
    rw [List.length_drop] at ih
    rw [cons, List.length_cons]
    omega
  | _ => exact Nat.zero_le _

/-- If symbols have characters then tokens do, and they reach to the end of the text or to a fault. -/
theorem Cuts.exists_tokens (hsome : table.symbols ≠ []) (hempty : ∀ p ∈ table.symbols, p.1 ≠ "")
    (h : Cuts table offset text s) : ∃ ts, (∀ t ∈ ts, t.span.start < t.span.stop) ∧
      (s = ⟨ts ++ [Token.endOfInput (offset + text.length)], .exhausted⟩ ∨
        ∃ begins e, s = ⟨ts, .failed begins e⟩) := by
  induction h with
  | done => exact ⟨[], nofun, .inl rfl⟩
  | space hr _ ih => rwa [stop_drop (Reading.le_of_space hr).2] at ih
  | @lexeme offset c rest l s hr _ _ ih =>
    obtain ⟨ts, hts, hend⟩ := ih
    rw [stop_drop (Reading.le_of_lexeme hr)] at hend
    generalize ht : (⟨l.kind, .ofLength offset l.length, l.payload, (c :: rest).take l.length⟩ : Token) = t
    have hlt : t.span.start < t.span.stop := by
      rw [← ht]
      exact Nat.lt_add_of_pos_right (Reading.length_pos_of_lexeme hempty hr)
    refine ⟨t :: ts, List.forall_mem_cons.2 ⟨hlt, hts⟩, ?_⟩
    rcases hend with rfl | ⟨begins, e, rfl⟩
    · exact .inl rfl
    · exact .inr ⟨begins, e, rfl⟩
  | stalled hr hl => exact absurd hl (Nat.ne_of_gt (Reading.length_pos_of_lexeme hempty hr))
  | fault => exact ⟨[], nofun, .inr ⟨_, _, rfl⟩⟩
  | unmatched hr =>
    cases Reading.ofText_eq_iff.1 hr with
    | unmatched _ _ ht => exact absurd (List.isEmpty_iff.1 ht) hsome

theorem Cuts.reordered (ht : table.Distinct) (h : table.Reordered table')
    (hcuts : Cuts table offset text s) : Cuts table' offset text s := by
  have read : ∀ {c rest r}, Reading.ofText table c rest = r → Reading.ofText table' c rest = r :=
    fun hr => (Reading.ofText_reordered ht h).trans hr
  induction hcuts with
  | done => exact .done
  | space hr _ ih => exact .space (read hr) ih
  | lexeme hr hl _ ih => exact .lexeme (read hr) hl ih
  | stalled hr hl => exact .stalled (read hr) hl
  | fault hr => exact .fault (read hr)
  | unmatched hr => exact .unmatched (read hr)

/-- At a position where nothing else begins, the stream goes on with the longest symbol, or it ends
there and no symbol begins. -/
theorem ofTextAt_symbolic (hsome : table.symbols ≠ []) (hempty : ∀ p ∈ table.symbols, p.1 ≠ "")
    {position : Nat} {c : Char} (hposition : text[position]? = some c) (hc : Reading.Symbolic c) :
    (∃ s kind, LongestSymbol table (text.drop position) s kind ∧ ofTextAt table text position =
      cons ⟨kind, .ofLength position s.toList.length, .none, s.toList⟩
        (ofTextAt table text (position + s.toList.length))) ∨
    (∀ p ∈ table.symbols, ¬p.1.toList <+: text.drop position) ∧ ofTextAt table text position =
      ⟨[], .failed position ⟨.unexpectedCharacter c, .ofLength position 1⟩⟩ := by
  obtain ⟨rest, hrest⟩ : ∃ rest, text.drop position = c :: rest := by
    obtain ⟨hlt, rfl⟩ := List.getElem?_eq_some_iff.1 hposition
    exact ⟨_, List.drop_eq_getElem_cons hlt⟩
  rw [hrest]
  refine (Reading.ofText_symbolic hsome hc rest).imp ?_ ?_
  · rintro ⟨s, kind, hlongest, hr⟩
    refine ⟨s, kind, hlongest, Cuts.eq_ofTextAt ?_⟩
    have hchars : (c :: rest).take s.toList.length = s.toList :=
      (List.prefix_iff_eq_take.1 hlongest.begins).symm
    have hbehind := ofTextAt_cuts table text (position + s.toList.length)
    rw [← List.drop_drop, hrest] at hbehind
    have hcut := Cuts.lexeme hr (Nat.ne_of_gt (Reading.length_pos_of_lexeme hempty hr)) hbehind
    dsimp only at hcut
    rwa [hchars, ← hrest] at hcut
  · rintro ⟨hnone, hr⟩
    refine ⟨hnone, Cuts.eq_ofTextAt ?_⟩
    rw [hrest]
    exact .fault hr

/-- **Maximal munch under any table.** At a position where neither white space nor a number, a word or a
string begins, the stream goes on with the longest symbol of the table that begins there, or it ends there
with an unexpected character and no symbol begins. These are the positions of its tokens and of its fault:
from the position of a token on, the stream is the token and what follows it. All tokens have characters
but for the end of input, which completes a stream without a fault, so that there is at most one token more
than there are characters. A table that lists the same entries in another order gives the same stream. -/
theorem ofText_takes_longest_symbols (ht : table.Distinct) (hsome : table.symbols ≠ [])
    (hempty : ∀ p ∈ table.symbols, p.1 ≠ "") (text : List Char) :
    (∀ position c, text[position]? = some c → Reading.Symbolic c →
      (∃ s kind, LongestSymbol table (text.drop position) s kind ∧ ofTextAt table text position =
        cons ⟨kind, .ofLength position s.toList.length, .none, s.toList⟩
          (ofTextAt table text (position + s.toList.length))) ∨
      (∀ p ∈ table.symbols, ¬p.1.toList <+: text.drop position) ∧ ofTextAt table text position =
        ⟨[], .failed position ⟨.unexpectedCharacter c, .ofLength position 1⟩⟩) ∧
    (∀ before t after, (ofText table text).tokens = before ++ t :: after →
      ofTextAt table text t.span.start = ⟨t :: after, (ofText table text).ending⟩) ∧
    (∀ begins e, (ofText table text).ending = .failed begins e →
      ofTextAt table text begins = ⟨[], .failed begins e⟩) ∧
    (∃ ts, (∀ t ∈ ts, t.span.start < t.span.stop) ∧
      (ofText table text = ⟨ts ++ [Token.endOfInput text.length], .exhausted⟩ ∨
        ∃ begins e, ofText table text = ⟨ts, .failed begins e⟩)) ∧
    (ofText table text).tokens.length ≤ text.length + 1 ∧
    ∀ table', table.Reordered table' → ofText table' text = ofText table text := by
  have hcuts := ofText_cuts table text
  refine ⟨fun position c => ofTextAt_symbolic hsome hempty, fun before t after htokens => ?_,
    fun begins e hfailed => ?_, ?_, hcuts.length_tokens_le, fun table' h => ?_⟩
  · have hdrop := hcuts.drop htokens
    rw [Nat.sub_zero] at hdrop
    exact hdrop.eq_ofTextAt
  · obtain ⟨-, hdrop⟩ := hcuts.drop_failed hfailed
    rw [Nat.sub_zero] at hdrop
    exact hdrop.eq_ofTextAt
  · have htokens := hcuts.exists_tokens hsome hempty
    rwa [Nat.zero_add] at htokens
  · exact (ofText_cuts table' text).unique (hcuts.reordered ht h)

/-- Of two symbols, one in the other, the longer is taken where it stands, whichever is listed first. What
the two have in common beyond the shorter is no symbol. -/
theorem ofText_takes_longest_symbols_overlapping :
    Table.Distinct ⟨[], [("<", .lesser), ("<<=", .equal)], [], []⟩ ∧
      (∀ p ∈ [("<", TokenKind.lesser), ("<<=", .equal)], p.1 ≠ "") ∧
      LongestSymbol ⟨[], [("<", .lesser), ("<<=", .equal)], [], []⟩ ['<', '<', '='] "<<=" .equal ∧
      ofText ⟨[], [("<<=", .equal), ("<", .lesser)], [], []⟩ ['<', '<', '<', '='] =
        ⟨[⟨.lesser, .ofLength 0 1, .none, ['<']⟩, ⟨.equal, .ofLength 1 3, .none, ['<', '<', '=']⟩,
          Token.endOfInput 4], .exhausted⟩ := by
  have ht : Table.Distinct ⟨[], [("<", .lesser), ("<<=", .equal)], [], []⟩ :=
    @Table.distinct_of_ofDescription
      ⟨some [], some [("<", "LESSER"), ("<<=", "EQUAL")], some [], some []⟩ _ rfl
  have hempty : ∀ p ∈ [("<", TokenKind.lesser), ("<<=", .equal)], p.1 ≠ "" := by decide
  obtain ⟨hsymbol, -, -, -, -, hreordered⟩ :=
    ofText_takes_longest_symbols ht (List.cons_ne_nil _ _) hempty ['<', '<', '<', '=']
  have hsame := hreordered ⟨[], [("<<=", .equal), ("<", .lesser)], [], []⟩ ⟨.refl _, .swap _ _ _⟩
  refine ⟨ht, hempty, ?_, by rw [hsame]; decide⟩
  obtain ⟨s, kind, hlongest, hstream⟩ | ⟨hnone, -⟩ := hsymbol 1 '<' rfl ⟨rfl, rfl, rfl, by decide⟩
  · have hsecond : ofTextAt ⟨[], [("<", .lesser), ("<<=", .equal)], [], []⟩ ['<', '<', '<', '='] 1 =
        cons ⟨.equal, .ofLength 1 3, .none, "<<=".toList⟩ ⟨[Token.endOfInput 4], .exhausted⟩ := by
      decide
    have htoken := List.head_eq_of_cons_eq (congrArg tokens (hstream.symm.trans hsecond))
    have hs : s.toList = "<<=".toList := congrArg Token.lexeme htoken
    have hkind : kind = .equal := congrArg Token.kind htoken
    rwa [String.toList_inj.1 hs, hkind] at hlongest
  · exact absurd (by decide) (hnone ("<", .lesser) (List.mem_cons_self ..))

end Stream

end Curly
