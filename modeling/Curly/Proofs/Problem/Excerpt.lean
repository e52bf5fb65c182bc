import Mathlib.Data.List.Basic
import Curly.Problem.Diagnostic
import Curly.Proofs.Text.Position

/-!
# The excerpts in diagnostics

A diagnostic shows the lines that its span touches, each once and in order, with carets under the
characters that the span covers. Everything that is read of the text on the way is there.

## Main definitions

* `TouchesLine`: a range of offsets has a place on a line.
* `MarksColumn`: the columns of a line under which the carets of a range stand.
* `Diagnostic.Excerpt`: a line with its number and the row of carets.
* `Diagnostic.renderLines?`: the written form, unless it reads what is not there.

## Main statements

* `Diagnostic.render_shows_span`: what a diagnostic looks like.
-/

namespace Curly

/-- A range of offsets has a place on a line. A newline lies on the line that it ends, and a range
without characters is where it begins. -/
def TouchesLine (text : List Char) (start stop i : Nat) : Prop :=
  (∃ p, start ≤ p ∧ p < stop ∧ lineOf text p = i) ∨ start = stop ∧ lineOf text start = i

/-- At a column of a line there is a character of the range, and it is no newline. -/
def CoversColumn (text : List Char) (start stop i column : Nat) : Prop :=
  (start ≤ lineStart text i + column ∧ lineStart text i + column < stop) ∧
    lineOf text (lineStart text i + column) = i ∧
    ∃ x, text[lineStart text i + column]? = some x ∧ x ≠ '\n'

/-- The columns of a line that a range marks: those that it covers or, if there are none, the first one
that it reaches. -/
def MarksColumn (text : List Char) (start stop i column : Nat) : Prop :=
  CoversColumn text start stop i column ∨
    (∀ other, ¬CoversColumn text start stop i other) ∧
      lineStart text i + column = max start (lineStart text i)

/-- The line of the last place of a range. -/
def lastLine (text : List Char) (start stop : Nat) : Nat :=
  if start < stop then lineOf text (stop - 1) else lineOf text start

section Ranges

variable {text line : List Char} {start stop i column : Nat}

/-- The lines that a range touches are those from the line of its first place to the line of its last. -/
theorem touchesLine_iff (hstart : start ≤ stop) :
    TouchesLine text start stop i ↔ lineOf text start ≤ i ∧ i ≤ lastLine text start stop := by
  rw [lastLine]
  constructor
  · rintro (⟨p, hp, hp', rfl⟩ | ⟨rfl, rfl⟩)
    · rw [if_pos (Nat.lt_of_le_of_lt hp hp')]
      exact ⟨lineOf_mono hp, lineOf_mono (by omega)⟩
    · rw [if_neg (Nat.lt_irrefl _)]
      exact ⟨Nat.le_refl _, Nat.le_refl _⟩
  · rintro ⟨hfirst, hlast⟩
    split at hlast
    -- The range is on the line where it begins, or else at the start of the line.
    · next hlt =>
      have hi : i < (linesOf text).length := Nat.lt_of_le_of_lt hlast (lineOf_lt _ _)
      have hbefore : lineStart text i ≤ stop - 1 := (lineStart_le_iff hi).2 hlast
      by_cases hinside : lineStart text i ≤ start
      · exact .inl ⟨start, Nat.le_refl _, hlt, Nat.le_antisymm hfirst ((lineStart_le_iff hi).1 hinside)⟩
      · exact .inl ⟨lineStart text i, by omega, by omega, lineOf_lineStart hi⟩
    · exact .inr ⟨by omega, Nat.le_antisymm hfirst hlast⟩

theorem lastLine_lt (text : List Char) (start stop : Nat) :
    lastLine text start stop < (linesOf text).length := by
  rw [lastLine]
  split <;> exact lineOf_lt text _

theorem coversColumn_iff (h : (linesOf text)[i]? = some line) :
    CoversColumn text start stop i column ↔ max start (lineStart text i) - lineStart text i ≤ column ∧
      column < min stop (lineStart text i + line.length) - lineStart text i := by
  rw [CoversColumn, on_line_iff h]
  omega

/-- The marked columns follow one another. -/
theorem marksColumn_iff (h : (linesOf text)[i]? = some line) {first last : Nat}
    (hfirst : first = max start (lineStart text i) - lineStart text i)
    (hlast : last = min stop (lineStart text i + line.length) - lineStart text i) :
    MarksColumn text start stop i column ↔ first ≤ column ∧ column < first + max (last - first) 1 := by
  have hcovers : ∀ c, CoversColumn text start stop i c ↔ first ≤ c ∧ c < last := by
    intro c
    rw [coversColumn_iff h, hfirst, hlast]
  rw [MarksColumn, hcovers]
  constructor
  · rintro (hcolumn | ⟨hnone, hcolumn⟩)
    · omega
    · omega
  · intro hcolumn
    by_cases hlt : first < last
    · exact .inl (by omega)
    · refine .inr ⟨fun other hother => ?_, by omega⟩
      rw [hcovers] at hother
      omega

end Ranges

/-- A greater number has no fewer digits. -/
theorem length_toString_mono {m n : Nat} (h : m ≤ n) : (toString m).length ≤ (toString n).length := by
  have hn : n < 10 ^ (toString n).length :=
    (Nat.length_repr_le_iff Nat.length_repr_pos).1 (Nat.le_refl _)
  exact (Nat.length_repr_le_iff Nat.length_repr_pos).2 (Nat.lt_of_le_of_lt h hn)

namespace Diagnostic

/-- What a diagnostic shows of one line, for the range `[start, stop)` of a text. -/
structure Excerpt (text : List Char) (start stop width : Nat) where
  /-- The line, counted from zero. -/
  line : Nat
  /-- The number of the line, as wide as all numbers. -/
  number : String
  /-- The line as it stands in the text. -/
  content : String
  /-- The row of carets under the line. -/
  carets : String
  /-- Numbers are counted from one and filled with spaces from the left. -/
  number_eq : ∃ n, number = fill n ' ' ++ toString (line + 1)
  length_number : number.length = width
  /-- The line goes from its start to the next newline or to the end of the text. -/
  content_eq : content.toList = (text.drop (lineStart text line)).takeWhile (· != '\n')
  /-- The carets stand at the marked columns. -/
  caret_iff : ∀ column, carets.toList[column]? = some '^' ↔ MarksColumn text start stop line column
  /-- Between the carets there are spaces. -/
  caret_or_space : ∀ c ∈ carets.toList, c = '^' ∨ c = ' '
  /-- Nothing follows the last caret. -/
  getLast?_carets : carets.toList.getLast? = some '^'

/-- The two rows of an excerpt. Columns of the carets are columns of the line. -/
def Excerpt.rows {text : List Char} {start stop width : Nat} (e : Excerpt text start stop width) :
    List String :=
  ["> " ++ e.number ++ " | " ++ e.content, "  " ++ fill width ' ' ++ " | " ++ e.carets]

/-- The rows for one line, unless the line or its start is read and is not there. -/
def excerptLine? (starts : Array Nat) (lines : Array (List Char)) (width start stop index : Nat) :
    Option (List String) := do
  let content ← lines[index]?
  let lineStart ← starts[index]?
  let caretFrom := max start lineStart - lineStart
  let caretTo := min stop (lineStart + content.length) - lineStart
  return ["> " ++ padNumber width (index + 1) ++ " | " ++ String.ofList content,
    "  " ++ fill width ' ' ++ " | " ++ fill caretFrom ' ' ++ fill (max (caretTo - caretFrom) 1) '^']

/-- The lines of the written form, unless something is read that is not there. -/
def renderLines? (d : Diagnostic) : Option (List String) := do
  let text := d.source.toList
  let start := min d.span.start text.length
  let stop := min (max d.span.stop start) text.length
  let starts := lineStarts text
  let lines := (linesOf text).toArray
  let first ← lineIndex? starts start
  let last ← (if start < stop then lineIndex? starts (stop - 1 : Nat) else some first : Option Nat)
  let width := (toString (last + 1)).length
  let place ← Position.ofOffset? text start
  let excerpts ← (List.range' first (last + 1 - first)).mapM
    (excerptLine? starts lines width start stop)
  return [d.label ++ ": " ++ d.message,
    fill width ' ' ++ "--> line " ++ toString place.line ++ ", col " ++ toString place.column] ++
    excerpts.flatten

section

variable {text content : List Char} {start stop width index : Nat}

theorem toList_fill (n : Nat) (c : Char) : (fill n c).toList = List.replicate n c :=
  String.toList_ofList

theorem length_padNumber (h : (toString index).length ≤ width) :
    (padNumber width index).length = width := by
  rw [padNumber, String.length_append, ← String.length_toList, toList_fill, List.length_replicate]
  omega

theorem toList_carets (m n : Nat) :
    (fill m ' ' ++ fill n '^').toList = List.replicate m ' ' ++ List.replicate n '^' := by
  rw [String.toList_append, toList_fill, toList_fill]

theorem getElem?_carets {m n column : Nat} :
    (fill m ' ' ++ fill n '^').toList[column]? = some '^' ↔ m ≤ column ∧ column < m + n := by
  rw [toList_carets]
  by_cases hcolumn : column < m
  · rw [List.getElem?_append_left (by rwa [List.length_replicate]), List.getElem?_replicate,
      if_pos hcolumn]
    simp
    omega
  · rw [List.getElem?_append_right (by rw [List.length_replicate]; omega), List.length_replicate,
      List.getElem?_replicate]
    split <;> simp <;> omega

/-- The rows for a line of the text. -/
theorem excerptLine_rows (hcontent : (linesOf text)[index]? = some content)
    (hwidth : (toString (index + 1)).length ≤ width) :
    ∃ e : Excerpt text start stop width, e.line = index ∧
      excerptLine (lineStarts text) (linesOf text).toArray width start stop index = e.rows := by
  have hindex : index < (linesOf text).length := (List.getElem?_eq_some_iff.1 hcontent).1
  have hline : (linesOf text).toArray.getD index [] = content := by
    rw [Array.getD_eq_getD_getElem?, List.getElem?_toArray, hcontent]
    rfl
  obtain ⟨first, hfirst⟩ : ∃ first, first = max start (lineStart text index) - lineStart text index :=
    ⟨_, rfl⟩
  obtain ⟨last, hlast⟩ : ∃ last, last =
      min stop (lineStart text index + content.length) - lineStart text index := ⟨_, rfl⟩
  refine ⟨{ line := index
            number := padNumber width (index + 1)
            content := String.ofList content
            carets := fill first ' ' ++ fill (max (last - first) 1) '^'
            number_eq := ⟨_, rfl⟩
            length_number := length_padNumber hwidth
            content_eq := ?_
            caret_iff := ?_
            caret_or_space := ?_
            getLast?_carets := ?_ }, rfl, ?_⟩
  · rw [String.toList_ofList, takeWhile_drop_lineStart hcontent]
  · intro column
    rw [getElem?_carets, marksColumn_iff hcontent hfirst hlast]
  · intro c hc
    rw [toList_carets, List.mem_append] at hc
    obtain hc | hc := hc
    · exact .inr (List.eq_of_mem_replicate hc)
    · exact .inl (List.eq_of_mem_replicate hc)
  · rw [toList_carets, List.getLast?_append, List.getLast?_replicate, if_neg (by omega)]
    rfl
  · rw [excerptLine, hline, getD_lineStarts hindex, ← hfirst, ← hlast, Excerpt.rows]
    simp only [String.append_assoc]

theorem excerptLine?_eq (h : index < (linesOf text).length) :
    excerptLine? (lineStarts text) (linesOf text).toArray width start stop index =
      some (excerptLine (lineStarts text) (linesOf text).toArray width start stop index) := by
  rw [excerptLine?, getElem?_lineStarts h, List.getElem?_toArray, List.getElem?_eq_getElem h, excerptLine,
    getD_lineStarts h, Array.getD_eq_getD_getElem?, List.getElem?_toArray, List.getElem?_eq_getElem h]
  rfl

/-- The rows for several lines of the text. -/
theorem exists_excerpts (indices : List Nat) (h : ∀ i ∈ indices, i < (linesOf text).length ∧
      (toString (i + 1)).length ≤ width) :
    ∃ es : List (Excerpt text start stop width), es.map (·.line) = indices ∧
      indices.flatMap (excerptLine (lineStarts text) (linesOf text).toArray width start stop) =
        es.flatMap Excerpt.rows := by
  induction indices with
  | nil => exact ⟨[], rfl, rfl⟩
  | cons index indices ih =>
    obtain ⟨⟨hindex, hwidth⟩, hindices⟩ := List.forall_mem_cons.1 h
    obtain ⟨e, hline, hrows⟩ := @excerptLine_rows text _ start stop width index
      (List.getElem?_eq_getElem hindex) hwidth
    obtain ⟨es, hlines, hrest⟩ := ih hindices
    refine ⟨e :: es, ?_, ?_⟩
    · rw [List.map_cons, hline, hlines]
    · rw [List.flatMap_cons, List.flatMap_cons, hrows, hrest]

/-- None of the lines that are read is missing. -/
theorem mapM_excerptLine? (indices : List Nat) (h : ∀ i ∈ indices, i < (linesOf text).length) :
    indices.mapM (excerptLine? (lineStarts text) (linesOf text).toArray width start stop) =
      some (indices.map
        (excerptLine (lineStarts text) (linesOf text).toArray width start stop)) := by
  induction indices with
  | nil => rfl
  | cons index indices ih =>
    obtain ⟨hindex, hindices⟩ := List.forall_mem_cons.1 h
    rw [List.mapM_cons, excerptLine?_eq hindex, ih hindices]
    rfl

end

variable (d : Diagnostic)

/-- Where the part of the text that is shown begins. -/
def shownStart : Nat := min d.span.start d.source.toList.length

/-- Where the part of the text that is shown ends. -/
def shownStop : Nat := min d.span.stop d.source.toList.length

/-- The lines that are shown, counted from zero. -/
def shownLines : List Nat :=
  List.range' (lineOf d.source.toList d.shownStart)
    (lastLine d.source.toList d.shownStart d.shownStop + 1 - lineOf d.source.toList d.shownStart)

/-- The number of characters of the greatest line number that is shown. -/
def numberWidth : Nat :=
  (toString (lastLine d.source.toList d.shownStart d.shownStop + 1)).length

theorem shownStart_le : d.shownStart ≤ d.shownStop := by
  have := d.span.start_le
  rw [shownStart, shownStop]
  omega

theorem lineOf_shownStart_le : lineOf d.source.toList d.shownStart ≤
    lastLine d.source.toList d.shownStart d.shownStop := by
  rw [lastLine]
  split
  · exact lineOf_mono (by omega)
  · exact Nat.le_refl _

theorem shownStop_eq :
    min (max d.span.stop d.shownStart) d.source.toList.length = d.shownStop := by
  have := d.span.start_le
  rw [shownStart, shownStop]
  omega

theorem mem_shownLines {i : Nat} :
    i ∈ d.shownLines ↔ TouchesLine d.source.toList d.shownStart d.shownStop i := by
  rw [shownLines, List.mem_range'_1, touchesLine_iff d.shownStart_le]
  omega

theorem of_mem_shownLines {i : Nat} (h : i ∈ d.shownLines) : i < (linesOf d.source.toList).length ∧
    (toString (i + 1)).length ≤ d.numberWidth := by
  rw [mem_shownLines, touchesLine_iff d.shownStart_le] at h
  have hlast := lastLine_lt d.source.toList d.shownStart d.shownStop
  exact ⟨Nat.lt_of_le_of_lt h.2 hlast, length_toString_mono (Nat.succ_le_succ h.2)⟩

/-- The second line of the written form: the line and the column at which the span begins. -/
def place (width : Nat) : String :=
  fill width ' ' ++ "--> line " ++ toString (lineOf d.source.toList d.shownStart + 1) ++ ", col " ++
    toString (d.shownStart - lineStart d.source.toList (lineOf d.source.toList d.shownStart) + 1)

theorem place_ofOffset (width : Nat) :
    fill width ' ' ++ "--> line " ++
        toString (Position.ofOffset d.source.toList d.shownStart).line ++ ", col " ++
        toString (Position.ofOffset d.source.toList d.shownStart).column = d.place width := by
  have hle : lineStart d.source.toList (lineOf d.source.toList d.shownStart) ≤ d.shownStart :=
    (lineStart_le_iff (lineOf_lt _ _)).2 (Nat.le_refl _)
  rw [Position.ofOffset_natCast, place, ← Int.ofNat_sub hle]
  rfl

theorem lineIndex_last :
    (if d.shownStart < d.shownStop then
        lineIndex (lineStarts d.source.toList) (d.shownStop - 1 : Nat)
      else lineIndex (lineStarts d.source.toList) d.shownStart) =
      lastLine d.source.toList d.shownStart d.shownStop := by
  rw [lineIndex_lineStarts, lineIndex_lineStarts, lastLine]

theorem renderLines_eq :
    d.renderLines = [d.label ++ ": " ++ d.message, d.place d.numberWidth] ++
      d.shownLines.flatMap (excerptLine (lineStarts d.source.toList) (linesOf d.source.toList).toArray
        d.numberWidth d.shownStart d.shownStop) := by
  rw [renderLines, ← shownStart, shownStop_eq, lineIndex_last, lineIndex_lineStarts]
  exact congrArg (fun p => [d.label ++ ": " ++ d.message, p] ++ _) (d.place_ofOffset d.numberWidth)

/-- The lines and starts that are read are all there. -/
theorem renderLines?_eq : d.renderLines? = some d.renderLines := by
  have hlast : (if d.shownStart < d.shownStop then
        lineIndex? (lineStarts d.source.toList) (d.shownStop - 1 : Nat)
      else some (lineOf d.source.toList d.shownStart)) =
      some (lastLine d.source.toList d.shownStart d.shownStop) := by
    rw [lineIndex?_lineStarts, lastLine]
    split <;> rfl
  have hrows : d.shownLines.mapM (excerptLine? (lineStarts d.source.toList)
      (linesOf d.source.toList).toArray d.numberWidth d.shownStart d.shownStop) =
      some (d.shownLines.map (excerptLine (lineStarts d.source.toList)
        (linesOf d.source.toList).toArray d.numberWidth d.shownStart d.shownStop)) :=
    mapM_excerptLine? d.shownLines fun i hi => (d.of_mem_shownLines hi).1
  rw [renderLines?, renderLines_eq, ← shownStart, shownStop_eq, lineIndex?_lineStarts, ← place_ofOffset,
    Position.ofOffset?_natCast, List.flatMap_def]
  simp only [Option.bind_eq_bind, Option.bind_some, hlast]
  rw [← shownLines, ← numberWidth, hrows]
  rfl

/-- **Diagnostics show their span.** Below the headline and the place of the first character of the span
stand the lines that the span touches, each once and in order, with carets under the characters that it
covers. What lies beyond the end of the text is no part of the span. Nothing is read that is not there. -/
theorem render_shows_span :
    d.renderLines? = some d.renderLines ∧
      ∃ (width : Nat) (es : List (Excerpt d.source.toList d.shownStart d.shownStop width)),
        (es.map (·.line)).Pairwise (· < ·) ∧
        (∀ i, i ∈ es.map (·.line) ↔ TouchesLine d.source.toList d.shownStart d.shownStop i) ∧
        (∃ e ∈ es, (toString (e.line + 1)).length = width) ∧
        d.render = String.intercalate "\n" ([d.label ++ ": " ++ d.message, d.place width] ++
          es.flatMap Excerpt.rows) := by
  refine ⟨d.renderLines?_eq, d.numberWidth, ?_⟩
  obtain ⟨es, hlines, hrows⟩ := @exists_excerpts d.source.toList d.shownStart d.shownStop d.numberWidth
    d.shownLines fun i hi => d.of_mem_shownLines hi
  have hlast : lastLine d.source.toList d.shownStart d.shownStop ∈ es.map (·.line) := by
    rw [hlines, mem_shownLines, touchesLine_iff d.shownStart_le]
    exact ⟨d.lineOf_shownStart_le, Nat.le_refl _⟩
  refine ⟨es, ?_, ?_, ?_, ?_⟩
  · rw [hlines]
    exact List.pairwise_lt_range' _
  · intro i
    rw [hlines, mem_shownLines]
  · obtain ⟨e, he, hline⟩ := List.mem_map.1 hlast
    exact ⟨e, he, by rw [hline, numberWidth]⟩
  · rw [render, renderLines_eq, hrows]

end Diagnostic

end Curly
