import Curly.Proofs.Grammar.Harmless
import Curly.Proofs.Token.Places
import Curly.Proofs.Tree.Outline

/-!
# Outlines of trees that are read

Names are words, literals are values of the language, and no name is missing in a tree that was read from a
text. So its outline says everything about it, up to numbers that are displayed alike.

## Main statements

* `Phrase.Derives.exists_name`: the names in a tree are names of tokens.
* `Tree.read_presentable`: every node of a tree that was read can be told from what is shown of it.
* `Tree.read_outline_iff`: trees that were read have the same outline only if they are shown alike.
-/

namespace Curly

/-- An identifier says a word. -/
theorem Lexeme.Spells.isWordPart_of_mem {chars : List Char} {n : String}
    (h : Spells chars .identifier (.name n)) : ∀ c ∈ n.toList, isWordPart c = true := by
  cases h with
  | identifier hc hchars _ =>
    rw [String.toList_ofList]
    exact List.forall_mem_cons.2 ⟨Reading.isWordPart_of_isWordStart hc, hchars⟩

theorem Tree.named?_withSpan (s : Span) (t : Tree) : (t.withSpan s).named? = t.named? := by
  cases t <;> rfl

/-- The name of a node is the name that a token says. -/
theorem Phrase.Derives.exists_name {d : Nat} {x : Phrase} {ts : List Token} {T : Tree} {n : String}
    (h : Derives d x ts T) (hT : T.named? = some n) : ∃ t ∈ ts, t.IsName n := by
  induction h with
  | @declaration _ opener name _ _ _ _ _ hn =>
    cases hT
    exact ⟨name, by simp, hn⟩
  | @bareDeclaration _ opener name _ _ hn =>
    cases hT
    exact ⟨name, by simp, hn⟩
  | evaluation _ ih => exact ih hT
  | assignment hn =>
    cases hT
    exact ⟨_, List.mem_cons_self .., hn⟩
  | operation _ ih => exact ih hT
  | tighter _ ih => exact ih hT
  | unsigned _ ih => exact ih hT
  | uncalled _ ih => exact ih hT
  | reference hn =>
    cases hT
    exact ⟨_, List.mem_cons_self .., hn⟩
  | parenthesized _ _ _ ih =>
    rw [Tree.named?_withSpan] at hT
    obtain ⟨t, ht, hn⟩ := ih hT
    exact ⟨t, List.mem_cons_of_mem _ (List.mem_append_left _ ht), hn⟩
  | _ => cases hT

namespace Tree

variable {unit unit' : TextUnit} {text text' : List Char} {T T' u : Tree} {c c' : Cursor}
  {path : List Nat} {n : String} {width level : Int} {lines lines' : List String}

/-- The names in a tree that was read are words. -/
theorem read_name (h : read unit text = .ok T c) (hu : T.at? path = some u) (hn : u.named? = some n) :
    ∀ d ∈ n.toList, Lexeme.isWordPart d = true := by
  have hblock : ∀ s es t, u ≠ .block s es t := by
    rintro s es t rfl
    cases hn
  have himplicit : ¬T.Implicit path := not_implicit hu <| by
    rintro s rfl
    cases hn
  obtain ⟨us, eof, htokens, -, x, vs, d, hvs, hderives⟩ := read_derives h hu hblock himplicit
  obtain ⟨t, ht, hkind, hpayload⟩ := hderives.exists_name hn
  have hmem : t ∈ (Stream.ofText .standard text).tokens := by
    rw [htokens]
    exact List.mem_append_left _ (hvs.subset ht)
  obtain ⟨hspells, -, -⟩ := Stream.slice_token hmem (by rw [hkind]; decide)
  rw [hkind, hpayload] at hspells
  exact hspells.isWordPart_of_mem

/-- Every node of a tree that was read can be told from what is shown of it. -/
theorem read_presentable (h : read unit text = .ok T c) (hu : T.at? path = some u) : u.Presentable where
  literal := (read_harmless h hu).literal
  named n hn hmem := absurd (read_name h hu hn _ hmem) (by decide)
  known s hs := by
    obtain ⟨role, hrole⟩ := (read_plays h).exists_at? hu
    subst hs
    exact hrole.meant.1 rfl

/-- **Outlines lose nothing.** Trees that were read from any texts, as any units of text, have the same
outline if and only if they are equal, spans included, up to numbers in them that are displayed alike. The
lines of an outline are joined to one text, and steps of any positive width are enough to tell where a node
belongs. -/
theorem read_outline_iff (hwidth : 1 ≤ width) (hlevel : 0 ≤ level) (h : read unit text = .ok T c)
    (h' : read unit' text' = .ok T' c') (hlines : T.outline? width level = some lines)
    (hlines' : T'.outline? width level = some lines') :
    String.intercalate "\n" lines = String.intercalate "\n" lines' ↔ T.ShownAlike T' := by
  have hT : ∀ path v, T.at? path = some v → v.Presentable := fun _ _ => read_presentable h
  have hT' : ∀ path v, T'.at? path = some v → v.Presentable := fun _ _ => read_presentable h'
  constructor
  · intro heq
    obtain ⟨below, hfirst, -⟩ := outlineAt?_lines hlevel hlines
    obtain ⟨below', hfirst', -⟩ := outlineAt?_lines hlevel hlines'
    have hsame : lines = lines' := by
      refine lines_eq_of_intercalate_eq ?_ ?_ (newline_not_mem_of_mem_outline hlevel hT hlines)
        (newline_not_mem_of_mem_outline hlevel hT' hlines') heq
      · rw [hfirst]
        exact List.cons_ne_nil _ _
      · rw [hfirst']
        exact List.cons_ne_nil _ _
    exact .of_outlineAt?_eq hwidth hlevel hT hT' hlines (hsame ▸ hlines')
  · intro hshown
    have hsame : some lines = some lines' := by
      rw [← hlines, ← hlines', outline?, outline?, hshown.outlineAt?_eq]
    rw [Option.some.inj hsame]

/-- Two spellings of a conjunction with a string that looks like a line of its own. -/
theorem read_outline_iff_conjunction :
    ∃ T T' c c' lines, read .single "x and \x22tail:\x22".toList = .ok T c ∧
      read .single "x  &  \x22tail:\x22".toList = .ok T' c' ∧
      T.outline? 2 0 = some lines ∧ T'.outline? 2 0 = some lines ∧ T.ShownAlike T' := by
  obtain ⟨T, hT, hlines⟩ := Option.bind_eq_some_iff.1
    (show ((Cursor.result? (read .single "x and \x22tail:\x22".toList)).bind fun T => T.outline? 2 0) =
      some ["BinaryExpr and [0..13)", "  Variable x [0..1)", "  Literal \x22tail:\x22 [6..13)"] by
        decide +kernel)
  obtain ⟨T', hT', hlines'⟩ := Option.bind_eq_some_iff.1
    (show ((Cursor.result? (read .single "x  &  \x22tail:\x22".toList)).bind fun T => T.outline? 2 0) =
      some ["BinaryExpr and [0..13)", "  Variable x [0..1)", "  Literal \x22tail:\x22 [6..13)"] by
        decide +kernel)
  obtain ⟨c, hc⟩ := Cursor.exists_of_result? hT
  obtain ⟨c', hc'⟩ := Cursor.exists_of_result? hT'
  exact ⟨T, T', c, c', _, hc, hc', hlines, hlines',
    (read_outline_iff (by decide) (by decide) hc hc' hlines hlines').1 rfl⟩

end Tree

end Curly
