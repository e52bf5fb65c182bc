import Curly.Value.Display
import Curly.Proofs.Grammar.Slices
import Curly.Proofs.Grammar.Units
import Curly.Proofs.Token.Segmentation
import Curly.Run.Evaluation

/-!
# Strings that are displayed

The form in which a string is displayed is a literal of the language that says this string.

## Main definitions

* `Quoted.replace`: a character is replaced throughout a text.
* `Quoted.escapeAll`: the replacements that make the form of a string.

## Main statements

* `Quoted.display_eq_escapeAll`: the form of a string by one replacement after the other.
* `Quoted.encodes_display`: what stands between the quotes says the string.
* `Stream.ofText_of_spells`: a lexeme that stands alone is the only token.
* `Value.display_string_inverse`: displayed strings are read back.
-/

namespace Curly

namespace Quoted

/-- The text with some characters in place of each occurrence of a character. -/
def replace (c : Char) (chars text : List Char) : List Char :=
  text.flatMap fun d => if d = c then chars else [d]

/-- What stands between the quotes, by one replacement after the other. The first one doubles all
backslashes and leaves alone those that come with the others. -/
def escapeAll (text : List Char) : List Char :=
  replace '\t' [backslash, 't'] (replace '\n' [backslash, 'n']
    (replace double [backslash, double] (replace backslash [backslash, backslash] text)))

theorem replace_append (c : Char) (chars text text' : List Char) :
    replace c chars (text ++ text') = replace c chars text ++ replace c chars text' :=
  List.flatMap_append

theorem replace_of_ne {c d : Char} (h : d ≠ c) (chars : List Char) : replace c chars [d] = [d] := by
  rw [replace, List.flatMap_singleton, if_neg h]

theorem escapeAll_cons (c : Char) (text : List Char) :
    escapeAll (c :: text) = escapeAll [c] ++ escapeAll text := by
  rw [← List.singleton_append]
  simp only [escapeAll, replace_append]

/-- A displayed character stands for itself, or it is written as an escape that stands for it. -/
theorem displayChar_cases (c : Char) :
    (∃ e, (e, c) ∈ StringReading.escapes ∧ displayChar c = [backslash, e]) ∨
      displayChar c = [c] ∧ c ≠ backslash ∧ c ≠ double ∧ c ≠ '\n' ∧ c ≠ '\t' := by
  by_cases hbackslash : c = backslash
  · subst hbackslash
    exact .inl ⟨backslash, by decide, rfl⟩
  by_cases hdouble : c = double
  · subst hdouble
    exact .inl ⟨double, by decide, rfl⟩
  by_cases hnewline : c = '\n'
  · subst hnewline
    exact .inl ⟨'n', by decide, rfl⟩
  by_cases htab : c = '\t'
  · subst htab
    exact .inl ⟨'t', by decide, rfl⟩
  · refine .inr ⟨?_, hbackslash, hdouble, hnewline, htab⟩
    rw [displayChar, if_neg hbackslash, if_neg hdouble, if_neg hnewline, if_neg htab]

/-- All characters at once are escaped like one kind of them after the other. -/
theorem display_eq_escapeAll (text : List Char) : display text = double :: escapeAll text ++ [double] := by
  have hchar : ∀ c, displayChar c = escapeAll [c] := by
    intro c
    obtain ⟨e, he, hc⟩ | ⟨hc, hbackslash, hdouble, hnewline, htab⟩ := displayChar_cases c
    · have hall : ∀ p ∈ StringReading.escapes, escapeAll [p.2] = [backslash, p.1] := by decide
      rw [hc]
      exact (hall (e, c) he).symm
    · rw [hc, escapeAll, replace_of_ne hbackslash, replace_of_ne hdouble, replace_of_ne hnewline,
        replace_of_ne htab]
  have hcontents : text.flatMap displayChar = escapeAll text := by
    induction text with
    | nil => rfl
    | cons c text ih => rw [List.flatMap_cons, ih, hchar, ← escapeAll_cons]
  rw [display, hcontents]

/-- Between the quotes, a displayed text says the text. -/
theorem encodes_display (text : List Char) :
    StringReading.Encodes (text.flatMap displayChar) text := by
  induction text with
  | nil => exact .nil
  | cons c text ih =>
    rw [List.flatMap_cons]
    obtain ⟨e, he, hc⟩ | ⟨hc, hbackslash, hdouble, -, -⟩ := displayChar_cases c
    · rw [hc]
      exact .escape he ih
    · rw [hc]
      exact .plain hdouble hbackslash ih

/-- No newline and no tab is displayed as it is. -/
theorem not_mem_display (text : List Char) : '\n' ∉ display text ∧ '\t' ∉ display text := by
  have hchar : ∀ c, '\n' ∉ displayChar c ∧ '\t' ∉ displayChar c := by
    intro c
    obtain ⟨e, he, hc⟩ | ⟨hc, -, -, hnewline, htab⟩ := displayChar_cases c
    · have hall : ∀ p ∈ StringReading.escapes, '\n' ∉ [backslash, p.1] ∧ '\t' ∉ [backslash, p.1] := by
        decide
      rw [hc]
      exact hall (e, c) he
    · rw [hc, List.mem_singleton, List.mem_singleton]
      exact ⟨Ne.symm hnewline, Ne.symm htab⟩
  have hquote : '\n' ≠ double ∧ '\t' ≠ double := by decide
  simp only [display, List.cons_append, List.mem_cons, List.mem_append, List.mem_flatMap,
    List.not_mem_nil, hquote, or_false, false_or]
  exact ⟨fun ⟨c, _, h⟩ => (hchar c).1 h, fun ⟨c, _, h⟩ => (hchar c).2 h⟩

end Quoted

namespace Stream

/-- A lexeme that stands alone is the only token of its text. -/
theorem ofText_of_spells {chars : List Char} {kind : TokenKind} {payload : Payload}
    (h : Lexeme.Spells chars kind payload) :
    ofText .standard chars = ⟨[⟨kind, .ofLength 0 chars.length, payload, chars⟩,
      Token.endOfInput chars.length], .exhausted⟩ := by
  obtain ⟨c, rest, rfl⟩ := List.exists_cons_of_ne_nil h.ne_nil
  have hread : Reading.ofText .standard c (rest ++ []) =
      .lexeme ⟨kind, payload, (c :: rest).length⟩ := by
    rw [List.append_nil]
    exact h.read rfl
  have hdone : Cuts .standard (0 + (c :: rest).length) []
      ⟨[Token.endOfInput (c :: rest).length], .exhausted⟩ := by
    rw [Nat.zero_add]
    exact .done
  have hcuts := Cuts.lexeme_append hread rfl hdone
  rw [List.append_nil] at hcuts
  exact (ofText_cuts _ _).unique hcuts

end Stream

namespace Tree

/-- A literal that stands alone is read as a node. -/
theorem read_literal {text : List Char} {t eof : Token} {v : Value}
    (htext : Stream.ofText .standard text = ⟨[t, eof], .exhausted⟩) (heof : eof.kind = .endOfInput)
    (ht : Phrase.literal? t = some v) : ∃ c, read .single text = .ok (.literal t.span v) c := by
  have hstatement : Phrase.Derives (0 + 3 + Phrase.primary.callsAbove) .statement [t]
      (.literal t.span v) :=
    (Phrase.Derives.literal ht).asStatement nofun
  apply read_of_derives
  rw [htext]
  exact TextUnit.Derives.mono (TextUnit.Derives.single EndsOfLine.nil hstatement EndsOfLine.nil heof)
    (by decide)

/-- Literals are evaluated to what they say. -/
theorem evaluate_literal (limits : Limits) (s : Span) (v : Value) (r : Run) :
    ∃ r', evaluate limits (.literal s v) r = .ok v r' ∧ r'.scopes = r.scopes :=
  ⟨_, rfl, rfl⟩

end Tree

namespace Value

theorem toList_display_string (s : String) :
    (display (.string s)).toList = Quoted.display s.toList :=
  String.toList_ofList

/-- A displayed string is a string literal that says it. -/
theorem spells_display_string (s : String) :
    Lexeme.Spells (display (.string s)).toList .string (.string s) := by
  have h : Lexeme.Spells (Quoted.display s.toList) .string (.string (String.ofList s.toList)) :=
    .string (Quoted.encodes_display s.toList)
  rwa [String.ofList_toList, ← toList_display_string] at h

/-- **Displayed strings are read back.** The display form of a string is made by four replacements and
quotes around them. It is one string literal from its beginning to its end, which says the string, and
nothing else. So different strings are displayed differently; no newline and no tab stands in the form,
and as an expression it has the string as its value. -/
theorem display_string_inverse (s : String) :
    (display (.string s)).toList = Quoted.double :: Quoted.escapeAll s.toList ++ [Quoted.double] ∧
      Stream.ofText .standard (display (.string s)).toList =
        ⟨[⟨.string, .ofLength 0 (display (.string s)).length, .string s, (display (.string s)).toList⟩,
          Token.endOfInput (display (.string s)).length], .exhausted⟩ ∧
      (∀ s', display (.string s') = display (.string s) ↔ s' = s) ∧
      ('\n' ∉ (display (.string s)).toList ∧ '\t' ∉ (display (.string s)).toList) ∧
      ∃ T, (∃ c, Tree.read .single (display (.string s)).toList = .ok T c) ∧
        ∀ limits r, ∃ r', T.evaluate limits r = .ok (.string s) r' ∧ r'.scopes = r.scopes := by
  have htokens := Stream.ofText_of_spells (spells_display_string s)
  refine ⟨?_, htokens, ?_, ?_, ?_⟩
  · rw [toList_display_string]
    exact Quoted.display_eq_escapeAll s.toList
  · intro s'
    constructor
    · intro h
      have htokens' := Stream.ofText_of_spells (spells_display_string s')
      rw [h, htokens] at htokens'
      cases htokens'
      rfl
    · intro h
      rw [h]
  · rw [toList_display_string]
    exact Quoted.not_mem_display s.toList
  · obtain ⟨c, hc⟩ := Tree.read_literal htokens rfl rfl
    exact ⟨_, ⟨c, hc⟩, fun limits r => Tree.evaluate_literal limits _ _ r⟩

end Value

end Curly
