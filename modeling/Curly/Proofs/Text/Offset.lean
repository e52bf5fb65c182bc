import Mathlib.Data.Prod.Lex
import Mathlib.Order.Bounds.Basic
import Curly.Proofs.Text.Position

/-!
# Offsets and their positions

The line of an offset is the number of newlines before it, and its column counts from the last of these.
No two offsets have one position, and later offsets have later positions.

## Main definitions

* `behindNewline`: the offset just behind the last newline before an offset.
* `halve`: one round of the search for the line of an offset.

## Main statements

* `lineStart_lineOf`: the line of an offset begins behind the last newline before it.
* `iterate_halve`: the rounds of the search come to an end at its result.
* `isGreatest_lineIndex`: the result is the last start that is not beyond the offset.
* `Position.ofOffset_reversible`: positions are exact and can be turned back into offsets.
-/

namespace Curly

/-- The offset just behind the last newline before an offset, or zero if there is none. -/
def behindNewline (text : List Char) : Nat → Nat
  | 0 => 0
  | o + 1 => if text[o]? = some '\n' then o + 1 else behindNewline text o

/-- One round of the search for the last start that is not beyond the offset: the range of indices is
cut in half. A range with one index is left as it is. -/
def halve (starts : Array Nat) (offset : Int) (range : Nat × Nat) : Nat × Nat :=
  if range.1 < range.2 then
    let middle := (range.1 + range.2 + 1) / 2
    if (starts.getD middle 0 : Int) ≤ offset then (middle, range.2) else (range.1, middle - 1)
  else range

section Lines

variable {text : List Char} {o o' : Nat}

theorem lineOf_succ_of_ne (h : text[o]? ≠ some '\n') : lineOf text (o + 1) = lineOf text o := by
  have hnone : text[o]?.toList.count '\n' = 0 := by
    refine List.count_eq_zero_of_not_mem fun hmem => h ?_
    rwa [Option.mem_toList] at hmem
  rw [lineOf, List.take_add_one, List.count_append, hnone, Nat.add_zero, lineOf]

/-- The line of an offset begins behind the last newline before the offset. -/
theorem lineStart_lineOf (text : List Char) (o : Nat) :
    lineStart text (lineOf text o) = behindNewline text o := by
  induction o with
  | zero => rw [lineOf_zero, lineStart_zero, behindNewline]
  | succ o ih =>
    rw [behindNewline]
    split
    · next hnewline =>
      have hline := lineOf_lt text (o + 1)
      -- The new line begins no later than the offset, which lies on it, and the newline does not.
      refine Nat.le_antisymm ((lineStart_le_iff hline).2 (Nat.le_refl _)) ?_
      rw [Nat.succ_le_iff, ← Nat.not_le, lineStart_le_iff hline, lineOf_succ_of_newline hnewline]
      exact Nat.not_succ_le_self _
    · next hother => rw [lineOf_succ_of_ne hother, ih]

end Lines

section Search

variable {starts : Array Nat} {offset : Int} {low high : Nat}

/-- The rounds of the search come to an end: a range of at most `2 ^ rounds` indices is cut down to its
result. -/
theorem iterate_halve {rounds : Nat} (hrange : low ≤ high) (h : high - low < Nat.pow 2 rounds) :
    (halve starts offset)^[rounds] (low, high) =
      (lineIndexBetween starts offset low high, lineIndexBetween starts offset low high) := by
  induction rounds generalizing low high with
  | zero =>
    have hpow : Nat.pow 2 0 = 1 := rfl
    obtain rfl : low = high := by omega
    rw [Function.iterate_zero, id_eq, lineIndexBetween, if_neg (Nat.lt_irrefl low)]
  | succ rounds ih =>
    have hpow : Nat.pow 2 (rounds + 1) = Nat.pow 2 rounds * 2 := rfl
    rw [hpow] at h
    rw [Function.iterate_succ_apply]
    by_cases hlt : low < high
    · rw [halve, if_pos hlt, lineIndexBetween, if_pos hlt]
      dsimp only
      split
      · exact ih (by omega) (by omega)
      · exact ih (by omega) (by omega)
    · obtain rfl : low = high := by omega
      rw [halve, if_neg (Nat.lt_irrefl low)]
      exact ih (Nat.le_refl low) (by rw [Nat.sub_self]; exact Nat.two_pow_pos rounds)

/-- Among starts that increase from zero, the search finds the last one that is not beyond the offset. -/
theorem isGreatest_lineIndex {later : List Nat} (hincreasing : (0 :: later).Pairwise (· < ·)) (o : Nat) :
    IsGreatest {i | ∃ start, (0 :: later)[i]? = some start ∧ start ≤ o}
      (lineIndex (0 :: later).toArray o) := by
  have hgetD : ∀ {i : Nat} (hi : i < (0 :: later).length),
      (0 :: later).toArray.getD i 0 = (0 :: later).get ⟨i, hi⟩ := by
    intro i hi
    rw [Array.getD_eq_getD_getElem?, List.getElem?_toArray, List.getElem?_eq_getElem hi]
    rfl
  have hlt : lineIndex (0 :: later).toArray o < (0 :: later).length :=
    lineIndex_lt (Nat.succ_pos _)
  obtain ⟨hfound, habove⟩ := @lineIndex_greatest (0 :: later).toArray o
    (fun i j hij hj => by
      rw [hgetD (Nat.lt_trans hij hj), hgetD hj]
      exact List.pairwise_iff_getElem.1 hincreasing i j _ _ hij)
    (Int.natCast_nonneg o)
  constructor
  · rw [hgetD hlt, Int.ofNat_le] at hfound
    exact ⟨_, List.getElem?_eq_getElem hlt, hfound⟩
  · rintro i ⟨start, hstart, hle⟩
    obtain ⟨hi, rfl⟩ := List.getElem?_eq_some_iff.1 hstart
    by_contra hbeyond
    have hgreater := habove i (Nat.not_le.1 hbeyond) hi
    rw [hgetD hi, Int.ofNat_lt] at hgreater
    exact Nat.not_le_of_lt hgreater hle

end Search

namespace Position

variable {text : List Char} {o o' : Nat}

theorem ofOffset_eq_behindNewline (text : List Char) (o : Nat) :
    ofOffset text o = ⟨1 + (text.take o).count '\n', o - behindNewline text o + 1⟩ := by
  rw [ofOffset_natCast, lineStart_lineOf, Nat.add_comm, lineOf]

/-- Later offsets have later positions. -/
theorem ofOffset_lt (h : o < o') : Prod.Lex (· < ·) (· < ·)
    ((ofOffset text o).line, (ofOffset text o).column)
    ((ofOffset text o').line, (ofOffset text o').column) := by
  rw [ofOffset_natCast, ofOffset_natCast]
  have hle : lineOf text o ≤ lineOf text o' := lineOf_mono (Nat.le_of_lt h)
  obtain hlt | heq := Nat.lt_or_eq_of_le hle
  · exact .left _ _ (Nat.succ_lt_succ hlt)
  · rw [heq]
    refine .right _ ?_
    dsimp only
    omega

/-- An offset is as far behind the start of its line as its column says. -/
theorem start_add_column (text : List Char) (o : Nat) :
    ∃ start, (lineStarts text)[(ofOffset text o).line - 1]? = some start ∧
      (start : Int) + (ofOffset text o).column - 1 = o := by
  rw [ofOffset_natCast, Nat.add_sub_cancel]
  exact ⟨_, getElem?_lineStarts (lineOf_lt text o), by dsimp only; omega⟩

/-- **Positions are exact and reversible.** The line of an offset is one more than the number of newlines
before it, and its column counts from behind the last of them. The search among any starts that increase
from zero ends after as many rounds as it takes to halve them down to one, reads no start that there is
not, and finds the last one that is not beyond the offset. Later offsets have later positions, line before
column, and every offset is recovered from its position and the start of its line. -/
theorem ofOffset_reversible (text : List Char) :
    (∀ o : Nat, ofOffset? text o = some (ofOffset text o) ∧
      ofOffset text o = ⟨1 + (text.take o).count '\n', o - behindNewline text o + 1⟩) ∧
    (∀ later : List Nat, (0 :: later).Pairwise (· < ·) → ∀ o : Nat,
      (∀ rounds, (0 :: later).length ≤ Nat.pow 2 rounds →
        (halve (0 :: later).toArray o)^[rounds] (0, (0 :: later).length - 1) =
          (lineIndex (0 :: later).toArray o, lineIndex (0 :: later).toArray o)) ∧
      lineIndex? (0 :: later).toArray o = some (lineIndex (0 :: later).toArray o) ∧
      IsGreatest {i | ∃ start, (0 :: later)[i]? = some start ∧ start ≤ o}
        (lineIndex (0 :: later).toArray o)) ∧
    (∀ o o' : Nat, o < o' → Prod.Lex (· < ·) (· < ·)
      ((ofOffset text o).line, (ofOffset text o).column)
      ((ofOffset text o').line, (ofOffset text o').column)) ∧
    ∀ o : Nat, ∃ start, (lineStarts text)[(ofOffset text o).line - 1]? = some start ∧
      (start : Int) + (ofOffset text o).column - 1 = o := by
  refine ⟨fun o => ⟨ofOffset?_natCast text o, ofOffset_eq_behindNewline text o⟩, ?_,
    fun o o' h => ofOffset_lt h, start_add_column text⟩
  intro later hincreasing o
  refine ⟨fun rounds hrounds => ?_, ?_, isGreatest_lineIndex hincreasing o⟩
  · have hlt : (0 :: later).length - 1 - 0 < Nat.pow 2 rounds := by
      rw [List.length_cons] at hrounds ⊢
      omega
    exact iterate_halve (Nat.zero_le _) hlt
  · exact lineIndexBetween?_eq (Nat.lt_succ_self later.length)

/-- In a text of two lines, the offset behind the first character of the second line lies there. -/
theorem ofOffset_reversible_second_line :
    [0, 3].Pairwise (· < ·) ∧ lineIndex #[0, 3] 4 = 1 ∧ 2 < 4 ∧
      ofOffset ['a', 'b', '\n', 'c', 'd'] (2 : Nat) = ⟨1, 3⟩ ∧
      ofOffset ['a', 'b', '\n', 'c', 'd'] (4 : Nat) = ⟨2, 2⟩ ∧
      Prod.Lex (· < ·) (· < ·) (1, (3 : Int)) (2, 2) := by
  have hincreasing : [0, 3].Pairwise (· < ·) := by decide
  obtain ⟨hposition, hsearch, horder, -⟩ := ofOffset_reversible ['a', 'b', '\n', 'c', 'd']
  have hend : (1, 1) = (lineIndex #[0, 3] 4, lineIndex #[0, 3] 4) :=
    (hsearch [3] hincreasing 4).1 1 (by decide)
  have hnewline : ofOffset ['a', 'b', '\n', 'c', 'd'] (2 : Nat) = ⟨1, 3⟩ := (hposition 2).2
  have hsecond : ofOffset ['a', 'b', '\n', 'c', 'd'] (4 : Nat) = ⟨2, 2⟩ := (hposition 4).2
  have hlater := horder 2 4 (by decide)
  rw [hnewline, hsecond] at hlater
  exact ⟨hincreasing, (congrArg Prod.fst hend).symm, by decide, hnewline, hsecond, hlater⟩

end Position

end Curly
