import Mathlib.Data.List.Basic
import Curly.Text.Position

/-!
# The lines of a text

An offset lies on the line after as many newlines as stand before it. Each newline lies on the line that
it ends. The search for the line of an offset finds it, and it reads only the starts that there are.

## Main definitions

* `lineOf`: the line that an offset lies on.
* `lineStart`: the offset at which a line begins.
* `lineIndexBetween?`: the search, which fails where it reads a start that there is not.

## Main statements

* `lineStart_le_iff`: a line begins at the first offset that lies on it.
* `on_line_iff`: the characters that lie on a line.
* `lineIndex_greatest`: the search finds the last start that is not beyond the offset.
* `lineIndex_lineStarts`: the search finds the line of an offset.
-/

namespace Curly

/-- The line that an offset lies on, counted from zero: the number of newlines before it. -/
def lineOf (text : List Char) (offset : Nat) : Nat := (text.take offset).count '\n'

/-- The offset at which a line begins: the number of characters that lie on the lines before it. -/
def lineStart (text : List Char) (index : Nat) : Nat :=
  (List.range text.length).countP fun offset => lineOf text offset < index

section Lines

variable {c : Char} {text line : List Char} {i o o' : Nat}

theorem linesOf_newline (text : List Char) : linesOf ('\n' :: text) = [] :: linesOf text := rfl

/-- A character that is no newline stands on the first line. -/
theorem linesOf_cons (hc : c ≠ '\n') (text : List Char) :
    ∃ line rest, linesOf text = line :: rest ∧ linesOf (c :: text) = (c :: line) :: rest := by
  have hne : ∀ text, linesOf text ≠ [] := by
    intro text
    cases text with
    | nil => nofun
    | cons d ds =>
      rw [linesOf]
      split
      · nofun
      · split <;> nofun
  obtain ⟨line, rest, h⟩ := List.exists_cons_of_ne_nil (hne text)
  exact ⟨line, rest, h, by rw [linesOf, if_neg hc, h]⟩

theorem length_linesOf (text : List Char) : (linesOf text).length = text.count '\n' + 1 := by
  induction text with
  | nil => rfl
  | cons c text ih =>
    by_cases hc : c = '\n'
    · subst hc
      rw [linesOf_newline, List.length_cons, ih, List.count_cons_self]
    · obtain ⟨line, rest, h, h'⟩ := linesOf_cons hc text
      rw [h', List.count_cons_of_ne hc, ← ih, h]
      rfl

@[simp] theorem lineOf_zero (text : List Char) : lineOf text 0 = 0 := rfl

@[simp] theorem lineOf_nil (o : Nat) : lineOf [] o = 0 := by
  rw [lineOf, List.take_nil, List.count_nil]

theorem lineOf_cons_newline (text : List Char) (o : Nat) :
    lineOf ('\n' :: text) (o + 1) = lineOf text o + 1 := by
  rw [lineOf, List.take_succ_cons, List.count_cons_self, lineOf]

theorem lineOf_cons (hc : c ≠ '\n') (text : List Char) (o : Nat) :
    lineOf (c :: text) (o + 1) = lineOf text o := by
  rw [lineOf, List.take_succ_cons, List.count_cons_of_ne hc, lineOf]

theorem lineOf_mono (h : o ≤ o') : lineOf text o ≤ lineOf text o' :=
  (List.take_sublist_take_left h).count_le '\n'

theorem lineOf_succ_of_newline (h : text[o]? = some '\n') : lineOf text (o + 1) = lineOf text o + 1 := by
  rw [lineOf, List.take_add_one, h, Option.toList_some, List.count_append, List.count_singleton_self,
    lineOf]

/-- Every offset lies on one of the lines. -/
theorem lineOf_lt (text : List Char) (o : Nat) : lineOf text o < (linesOf text).length := by
  rw [length_linesOf, Nat.lt_succ_iff]
  exact (List.take_sublist o text).count_le '\n'

@[simp] theorem lineStart_zero (text : List Char) : lineStart text 0 = 0 := by
  simp [lineStart]

/-- The first character lies on the first line, and all others where they lie in the rest. -/
theorem lineStart_cons_succ (c : Char) (text : List Char) (i : Nat) :
    lineStart (c :: text) (i + 1) =
      (List.range text.length).countP (fun o => lineOf (c :: text) (o + 1) < i + 1) + 1 := by
  rw [lineStart, List.length_cons, List.range_succ_eq_map, List.countP_cons_of_pos (by simp),
    List.countP_map]
  rfl

theorem lineStart_newline (text : List Char) (i : Nat) :
    lineStart ('\n' :: text) (i + 1) = lineStart text i + 1 := by
  rw [lineStart_cons_succ]
  simp only [lineOf_cons_newline, Nat.add_lt_add_iff_right, lineStart]

theorem lineStart_cons (hc : c ≠ '\n') (text : List Char) (i : Nat) :
    lineStart (c :: text) (i + 1) = lineStart text (i + 1) + 1 := by
  rw [lineStart_cons_succ]
  simp only [lineOf_cons hc, lineStart]

/-- A line begins at the first offset that lies on it. -/
theorem lineStart_le_iff (hi : i < (linesOf text).length) : lineStart text i ≤ o ↔ i ≤ lineOf text o := by
  induction text generalizing i o with
  | nil =>
    obtain rfl : i = 0 := Nat.lt_one_iff.1 hi
    simp
  | cons c text ih =>
    cases i with
    | zero => simp
    | succ i =>
      by_cases hc : c = '\n'
      · subst hc
        rw [linesOf_newline, List.length_cons] at hi
        rw [lineStart_newline]
        cases o with
        | zero => simp
        | succ o =>
          rw [lineOf_cons_newline, Nat.succ_le_succ_iff, Nat.succ_le_succ_iff]
          exact ih (Nat.lt_of_succ_lt_succ hi)
      · obtain ⟨line, rest, h, h'⟩ := linesOf_cons hc text
        rw [h', List.length_cons, ← List.length_cons (a := line), ← h] at hi
        rw [lineStart_cons hc]
        cases o with
        | zero => simp
        | succ o =>
          rw [lineOf_cons hc, Nat.succ_le_succ_iff]
          exact ih hi

/-- A line stands between the newlines around it, or reaches to the end of the text. -/
theorem exists_around_line (h : (linesOf text)[i]? = some line) :
    ∃ before after, text = before ++ (line ++ after) ∧ before.length = lineStart text i ∧
      before.count '\n' = i ∧ '\n' ∉ line ∧ (after = [] ∨ ∃ rest, after = '\n' :: rest) := by
  induction text generalizing i line with
  | nil =>
    cases i with
    | zero =>
      cases h
      exact ⟨[], [], rfl, rfl, rfl, List.not_mem_nil, .inl rfl⟩
    | succ i => cases h
  | cons c text ih =>
    by_cases hc : c = '\n'
    · subst hc
      cases i with
      | zero =>
        cases h
        exact ⟨[], '\n' :: text, rfl, (lineStart_zero _).symm, rfl, List.not_mem_nil, .inr ⟨text, rfl⟩⟩
      | succ i =>
        obtain ⟨before, after, htext, hlength, hcount, hrest⟩ := ih h
        refine ⟨'\n' :: before, after, by rw [htext]; rfl, ?_, ?_, hrest⟩
        · rw [List.length_cons, hlength, lineStart_newline]
        · rw [List.count_cons_self, hcount]
    · obtain ⟨first, rest, hlines, hlines'⟩ := linesOf_cons hc text
      rw [hlines'] at h
      cases i with
      | zero =>
        cases h
        obtain ⟨before, after, htext, hlength, -, hnewline, hafter⟩ :=
          ih (show (linesOf text)[0]? = some first by rw [hlines]; rfl)
        obtain rfl : before = [] := List.length_eq_zero_iff.1 (hlength.trans (lineStart_zero text))
        refine ⟨[], after, by rw [htext]; rfl, (lineStart_zero _).symm, rfl, ?_, hafter⟩
        exact List.not_mem_cons_of_ne_of_not_mem (Ne.symm hc) hnewline
      | succ i =>
        obtain ⟨before, after, htext, hlength, hcount, hrest⟩ :=
          ih (show (linesOf text)[i + 1]? = some line by rw [hlines]; exact h)
        refine ⟨c :: before, after, by rw [htext]; rfl, ?_, ?_, hrest⟩
        · rw [List.length_cons, hlength, lineStart_cons hc]
        · rw [List.count_cons_of_ne hc, hcount]

/-- A line goes from its start to the next newline or to the end of the text. -/
theorem takeWhile_drop_lineStart (h : (linesOf text)[i]? = some line) :
    (text.drop (lineStart text i)).takeWhile (· != '\n') = line := by
  obtain ⟨before, after, htext, hlength, -, hnewline, hafter⟩ := exists_around_line h
  have hline : ∀ c ∈ line, (c != '\n') = true := by
    intro c hc
    rw [bne_iff_ne]
    rintro rfl
    exact hnewline hc
  have hstops : after.takeWhile (· != '\n') = [] := by
    obtain rfl | ⟨rest, rfl⟩ := hafter <;> rfl
  rw [← hlength, htext, List.drop_left, List.takeWhile_append_of_pos hline, hstops, List.append_nil]

/-- The characters of a line and the place just after them lie on it. -/
theorem lineOf_lineStart_add (h : (linesOf text)[i]? = some line) {column : Nat}
    (hcolumn : column ≤ line.length) : lineOf text (lineStart text i + column) = i := by
  obtain ⟨before, after, htext, hlength, hcount, hnewline, -⟩ := exists_around_line h
  rw [← hlength, lineOf, htext, List.take_length_add_append, List.take_append_of_le_length hcolumn,
    List.count_append, hcount, Nat.add_eq_left]
  exact List.count_eq_zero_of_not_mem fun hmem => hnewline (List.mem_of_mem_take hmem)

theorem lineOf_lineStart (hi : i < (linesOf text).length) : lineOf text (lineStart text i) = i :=
  lineOf_lineStart_add (List.getElem?_eq_getElem hi) (Nat.zero_le _)

/-- The characters that lie on a line and are no newlines are those of the line. -/
theorem on_line_iff (h : (linesOf text)[i]? = some line) {column : Nat} :
    (lineOf text (lineStart text i + column) = i ∧
      ∃ x, text[lineStart text i + column]? = some x ∧ x ≠ '\n') ↔ column < line.length := by
  obtain ⟨before, after, htext, hlength, hcount, hnewline, hafter⟩ := exists_around_line h
  have hget : text[lineStart text i + column]? = (line ++ after)[column]? := by
    rw [← hlength, htext, List.getElem?_append_right (Nat.le_add_right _ _), Nat.add_sub_cancel_left]
  rw [hget]
  constructor
  · rintro ⟨hline, x, hx, hne⟩
    by_contra hcolumn
    rw [Nat.not_lt] at hcolumn
    rw [List.getElem?_append_right hcolumn] at hx
    obtain rfl | ⟨rest, rfl⟩ := hafter
    · cases hx
    -- The newline behind the line is excluded, and what is beyond it lies on a later line.
    obtain rfl | hbeyond := Nat.eq_or_lt_of_le hcolumn
    · rw [Nat.sub_self] at hx
      cases hx
      exact hne rfl
    · have hend : lineOf text (lineStart text i + line.length + 1) = i + 1 := by
        rw [lineOf_succ_of_newline, lineOf_lineStart_add h (Nat.le_refl _)]
        rw [← hlength, ← List.length_append, htext, ← List.append_assoc,
          List.getElem?_append_right (Nat.le_refl _), Nat.sub_self]
        rfl
      have hmono := @lineOf_mono text (lineStart text i + line.length + 1) (lineStart text i + column)
        (by omega)
      omega
  · intro hcolumn
    refine ⟨lineOf_lineStart_add h (Nat.le_of_lt hcolumn), line.get ⟨column, hcolumn⟩, ?_, ?_⟩
    · rw [List.getElem?_append_left hcolumn, List.getElem?_eq_getElem hcolumn, List.get_eq_getElem]
    · intro hx
      exact hnewline (hx ▸ List.get_mem line ⟨column, hcolumn⟩)

theorem lineStart_lt {j : Nat} (hij : i < j) (hj : j < (linesOf text).length) :
    lineStart text i < lineStart text j := by
  rw [← Nat.not_le, lineStart_le_iff hj, lineOf_lineStart (Nat.lt_trans hij hj), Nat.not_le]
  exact hij

end Lines

section Search

variable {starts : Array Nat} {offset : Int} {low high : Nat}

theorem lineIndexBetween_le (h : low ≤ high) : lineIndexBetween starts offset low high ≤ high := by
  fun_induction lineIndexBetween starts offset low high with
  | case1 low high hlt middle hstart ih => exact ih (by omega)
  | case2 low high hlt middle hstart ih => exact Nat.le_trans (ih (by omega)) (by omega)
  | case3 => exact h

/-- Among starts that increase, the search finds the last one that is not beyond the offset. -/
theorem lineIndexBetween_greatest (hincreasing : ∀ i j, i < j → j ≤ high →
      starts.getD i 0 < starts.getD j 0) (hlow : (starts.getD low 0 : Int) ≤ offset) :
    (starts.getD (lineIndexBetween starts offset low high) 0 : Int) ≤ offset ∧
      ∀ i, lineIndexBetween starts offset low high < i → i ≤ high →
        offset < (starts.getD i 0 : Int) := by
  -- The invariant: what begins at `low` is not beyond the offset, what begins after `high` is.
  fun_induction lineIndexBetween starts offset low high with
  | case1 low high hlt middle hstart ih => exact ih hincreasing hstart
  | case2 low high hlt middle hstart ih =>
    have hmiddle : middle ≤ high := by omega
    obtain ⟨hfound, habove⟩ := ih (fun i j hij hj => hincreasing i j hij (by omega)) hlow
    refine ⟨hfound, fun i hi hhigh => ?_⟩
    by_cases hbelow : i < middle
    · exact habove i hi (by omega)
    · obtain rfl | hlt := Nat.eq_or_lt_of_not_lt hbelow
      · exact Int.not_le.1 hstart
      · have := hincreasing middle i hlt hhigh
        omega
  | case3 low high hle => exact ⟨hlow, fun i hi hhigh => absurd (Nat.lt_of_lt_of_le hi hhigh) hle⟩

theorem lineIndex_lt (h : 0 < starts.size) : lineIndex starts offset < starts.size := by
  have hle : lineIndex starts offset ≤ starts.size - 1 := lineIndexBetween_le (Nat.zero_le _)
  omega

/-- Among starts that increase from zero, the search finds the last one that is not beyond the offset. -/
theorem lineIndex_greatest (hincreasing : ∀ i j, i < j → j < starts.size →
      starts.getD i 0 < starts.getD j 0) (hfirst : (starts.getD 0 0 : Int) ≤ offset) :
    (starts.getD (lineIndex starts offset) 0 : Int) ≤ offset ∧
      ∀ i, lineIndex starts offset < i → i < starts.size → offset < (starts.getD i 0 : Int) := by
  obtain ⟨hfound, habove⟩ : (starts.getD (lineIndex starts offset) 0 : Int) ≤ offset ∧
      ∀ i, lineIndex starts offset < i → i ≤ starts.size - 1 → offset < (starts.getD i 0 : Int) :=
    lineIndexBetween_greatest (fun i j hij hj => hincreasing i j hij (by omega)) hfirst
  exact ⟨hfound, fun i hi hsize => habove i hi (by omega)⟩

/-- The search for the line of an offset, which fails where it reads a start that there is not. -/
def lineIndexBetween? (starts : Array Nat) (offset : Int) (low high : Nat) : Option Nat :=
  if low < high then
    match starts[(low + high + 1) / 2]? with
    | none => none
    | some start =>
      if (start : Int) ≤ offset then lineIndexBetween? starts offset ((low + high + 1) / 2) high
      else lineIndexBetween? starts offset low ((low + high + 1) / 2 - 1)
  else some low
termination_by high - low

/-- The line that holds an offset, unless a start is read that there is not. -/
def lineIndex? (starts : Array Nat) (offset : Int) : Option Nat :=
  lineIndexBetween? starts offset 0 (starts.size - 1)

/-- Every start that the search reads is there. -/
theorem lineIndexBetween?_eq (h : high < starts.size) :
    lineIndexBetween? starts offset low high = some (lineIndexBetween starts offset low high) := by
  fun_induction lineIndexBetween starts offset low high with
  | case1 low high hlt middle hstart ih =>
    have hmiddle : middle < starts.size := by omega
    rw [lineIndexBetween?, if_pos hlt, Array.getElem?_eq_getElem hmiddle]
    rw [Array.getD_eq_getD_getElem?, Array.getElem?_eq_getElem hmiddle] at hstart
    exact (if_pos hstart).trans (ih h)
  | case2 low high hlt middle hstart ih =>
    have hmiddle : middle < starts.size := by omega
    rw [lineIndexBetween?, if_pos hlt, Array.getElem?_eq_getElem hmiddle]
    rw [Array.getD_eq_getD_getElem?, Array.getElem?_eq_getElem hmiddle] at hstart
    exact (if_neg hstart).trans (ih (by omega))
  | case3 low high hle => rw [lineIndexBetween?, if_neg hle]

end Search

section Starts

variable {text : List Char} {i : Nat}

theorem startsAfterNewlines_eq (offset : Nat) (text : List Char) :
    startsAfterNewlines offset text =
      (List.range (text.count '\n')).map fun i => offset + lineStart text (i + 1) := by
  induction text generalizing offset with
  | nil => rfl
  | cons c text ih =>
    by_cases hc : c = '\n'
    · subst hc
      rw [startsAfterNewlines, if_pos rfl, ih, List.count_cons_self, List.range_succ_eq_map, List.map_cons,
        List.map_map, lineStart_newline, lineStart_zero]
      congr 1
      apply List.map_congr_left
      intro i _
      rw [Function.comp_apply, lineStart_newline]
      omega
    · rw [startsAfterNewlines, if_neg hc, ih, List.count_cons_of_ne hc]
      apply List.map_congr_left
      intro i _
      rw [lineStart_cons hc]
      omega

theorem lineStarts_eq (text : List Char) :
    lineStarts text = ((List.range (linesOf text).length).map (lineStart text)).toArray := by
  rw [lineStarts, startsAfterNewlines_eq, length_linesOf, List.range_succ_eq_map, List.map_cons,
    List.map_map, lineStart_zero]
  congr 2
  apply List.map_congr_left
  intro i _
  exact Nat.zero_add _

@[simp] theorem size_lineStarts (text : List Char) : (lineStarts text).size = (linesOf text).length := by
  rw [lineStarts_eq, List.size_toArray, List.length_map, List.length_range]

theorem size_lineStarts_pos (text : List Char) : 0 < (lineStarts text).size := by
  rw [size_lineStarts, length_linesOf]
  exact Nat.succ_pos _

theorem getElem?_lineStarts (hi : i < (linesOf text).length) :
    (lineStarts text)[i]? = some (lineStart text i) := by
  rw [lineStarts_eq, List.getElem?_toArray, List.getElem?_map, List.getElem?_range hi]
  rfl

theorem getD_lineStarts (hi : i < (linesOf text).length) :
    (lineStarts text).getD i 0 = lineStart text i := by
  rw [Array.getD_eq_getD_getElem?, getElem?_lineStarts hi]
  rfl

theorem lineStarts_increasing {j : Nat} (hij : i < j) (hj : j < (lineStarts text).size) :
    (lineStarts text).getD i 0 < (lineStarts text).getD j 0 := by
  rw [size_lineStarts] at hj
  rw [getD_lineStarts (Nat.lt_trans hij hj), getD_lineStarts hj]
  exact lineStart_lt hij hj

/-- The search finds the line of an offset. -/
theorem lineIndex_lineStarts (text : List Char) (o : Nat) :
    lineIndex (lineStarts text) o = lineOf text o := by
  have hhigh : lineIndex (lineStarts text) o < (linesOf text).length := by
    rw [← size_lineStarts]
    exact lineIndex_lt (size_lineStarts_pos text)
  obtain ⟨hfound, habove⟩ := @lineIndex_greatest (lineStarts text) o
    (fun i j hij hj => lineStarts_increasing hij hj) (Int.natCast_nonneg o)
  rw [getD_lineStarts hhigh, Int.ofNat_le, lineStart_le_iff hhigh] at hfound
  refine Nat.le_antisymm hfound (Nat.not_lt.1 fun hbelow => ?_)
  -- Otherwise the line of the offset is above the one that was found, and yet it begins before the offset.
  have hline := lineOf_lt text o
  have hbeyond := habove (lineOf text o) hbelow (by rwa [size_lineStarts])
  rw [getD_lineStarts hline, Int.ofNat_lt, ← Nat.not_le, lineStart_le_iff hline] at hbeyond
  exact hbeyond (Nat.le_refl _)

theorem lineIndex?_lineStarts (text : List Char) (o : Nat) :
    lineIndex? (lineStarts text) o = some (lineOf text o) := by
  have hhigh := size_lineStarts_pos text
  rw [lineIndex?, lineIndexBetween?_eq (by omega), ← lineIndex, lineIndex_lineStarts]

namespace Position

/-- The line and column of an offset, unless a start is read that there is not. -/
def ofOffset? (text : List Char) (offset : Int) : Option Position := do
  let starts := lineStarts text
  let index ← lineIndex? starts offset
  let start ← starts[index]?
  return ⟨index + 1, offset - start + 1⟩

theorem ofOffset_natCast (text : List Char) (o : Nat) :
    ofOffset text o = ⟨lineOf text o + 1, o - lineStart text (lineOf text o) + 1⟩ := by
  rw [ofOffset, lineIndex_lineStarts, getD_lineStarts (lineOf_lt text o)]

theorem ofOffset?_natCast (text : List Char) (o : Nat) :
    ofOffset? text o = some (ofOffset text o) := by
  rw [ofOffset_natCast, ofOffset?, lineIndex?_lineStarts, Option.bind_eq_bind, Option.bind_some,
    getElem?_lineStarts (lineOf_lt text o)]
  rfl

end Position

end Starts

end Curly
