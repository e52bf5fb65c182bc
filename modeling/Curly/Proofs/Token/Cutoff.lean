import Curly.Proofs.Token.Splice

/-!
# Texts that are cut off behind a fault

What is read at the beginning of a text does not depend on the characters that it does not reach. So a
text may be cut off behind what is faulty and continued on a new line without a change to its tokens or
to the fault. Only a string that is never closed reaches to the end of the text.

## Main definitions

* `Reading.reach`: how many characters what is read reaches over.

## Main statements

* `Reading.ofText_cut`: characters that are not reached may be replaced by a new line.
* `Stream.ofText_cutoff`: the stream of a text that is cut off behind what is faulty.
-/

namespace Curly

/-- What is found within the first part of a list is found in this part alone. -/
theorem takeWhile_cut {α : Type} {p : α → Bool} {xs ys : List α}
    (h : ((xs ++ ys).takeWhile p).length ≤ xs.length) : (xs ++ ys).takeWhile p = xs.takeWhile p := by
  rw [List.takeWhile_append] at h ⊢
  split
  · next hxs =>
    rw [if_pos hxs, List.length_append] at h
    have hys : ys.takeWhile p = [] := List.eq_nil_of_length_eq_zero (by omega)
    rw [hys, List.append_nil]
    exact ((List.takeWhile_prefix p).eq_of_length hxs).symm
  · rfl

namespace Lexeme

variable {xs ys : List Char}

theorem fractionOf_cut (h : (fractionOf (xs ++ ys)).isEmpty = false →
    (fractionOf (xs ++ ys)).length + 1 ≤ xs.length) : fractionOf (xs ++ ys) = fractionOf xs := by
  cases xs with
  | nil =>
    rw [List.nil_append] at h ⊢
    cases hys : fractionOf ys with
    | nil => rfl
    | cons d ds =>
      rw [hys] at h
      exact absurd (h rfl) (Nat.not_succ_le_zero _)
  | cons c xs =>
    by_cases hc : c = '.'
    · subst hc
      rw [List.cons_append, fractionOf] at h
      rw [List.cons_append, fractionOf, fractionOf]
      refine takeWhile_cut ?_
      cases hdigits : (xs ++ ys).takeWhile Char.isDigit with
      | nil => exact Nat.zero_le _
      | cons d ds =>
        rw [hdigits] at h
        exact Nat.le_of_succ_le_succ (h rfl)
    · rw [List.cons_append, fractionOf, fractionOf]
      · exact fun _ h => hc (List.cons.inj h).1
      · exact fun _ h => hc (List.cons.inj h).1

theorem number_cut (h : (number (xs ++ ys)).length ≤ xs.length) : number (xs ++ ys) = number xs := by
  have hlength : ((xs ++ ys).takeWhile Char.isDigit).length ≤ xs.length ∧
      ((fractionOf ((xs ++ ys).dropWhile Char.isDigit)).isEmpty = false →
        ((xs ++ ys).takeWhile Char.isDigit).length + 1 +
          (fractionOf ((xs ++ ys).dropWhile Char.isDigit)).length ≤ xs.length) := by
    unfold number at h
    dsimp only at h
    split at h
    · next hempty =>
      rw [hempty]
      exact ⟨h, nofun⟩
    · exact ⟨by dsimp only at h; omega, fun _ => h⟩
  obtain ⟨hwhole, hfraction⟩ := hlength
  -- The digits in front of the point lie within the first part, and the fraction does if there is one.
  have htake := takeWhile_cut hwhole
  have hdrop : (xs ++ ys).dropWhile Char.isDigit = xs.dropWhile Char.isDigit ++ ys := by
    have hsplit := List.takeWhile_append_dropWhile (p := Char.isDigit) (l := xs ++ ys)
    rw [htake] at hsplit
    refine List.append_cancel_left (hsplit.trans ?_)
    rw [← List.append_assoc, List.takeWhile_append_dropWhile]
  have hxs : (xs.takeWhile Char.isDigit).length + (xs.dropWhile Char.isDigit).length = xs.length := by
    rw [← List.length_append, List.takeWhile_append_dropWhile]
  rw [htake, hdrop] at hfraction
  unfold number
  rw [htake, hdrop, fractionOf_cut fun hne => by have := hfraction hne; omega]

theorem word_cut {table : Table} (h : (word table (xs ++ ys)).length ≤ xs.length) :
    word table (xs ++ ys) = word table xs := by
  have hword : ((xs ++ ys).takeWhile isWordPart).length ≤ xs.length := by
    unfold word at h
    dsimp only at h
    split at h <;> exact h
  unfold word
  rw [takeWhile_cut hword]

/-- What is found within the first part of a text is found at the beginning of this part alone. -/
theorem symbol?_cut {table : Table} {chars : List Char} {kind : TokenKind}
    (h : symbol? table (xs ++ ys) = some (chars, kind)) (hlength : chars.length ≤ xs.length) :
    symbol? table xs = some (chars, kind) := by
  rw [← h]
  refine symbol?_congr fun p hp => ?_
  refine ⟨fun hstart => hstart.trans (List.prefix_append xs ys), fun hstart => ?_⟩
  exact List.prefix_of_prefix_length_le hstart (List.prefix_append xs ys)
    (Nat.le_trans (symbol?_longest h p hp hstart) hlength)

end Lexeme

namespace StringReading

theorem cons_eq_unknownEscape {r : StringReading} {c e : Char} {width n : Nat}
    (h : r.cons c width = unknownEscape n e) : ∃ m, r = unknownEscape m e ∧ n = m + width := by
  cases r with
  | unknownEscape m =>
    cases h
    exact ⟨m, rfl, rfl⟩
  | closed => cases h
  | unterminated => cases h

/-- A string that is found to be faulty does not depend on what comes behind the fault. -/
theorem ofText_unknownEscape {text : List Char} {n : Nat} {e : Char}
    (h : ofText text = unknownEscape n e) (more : List Char) :
    ofText (text.take (n + 2) ++ more) = unknownEscape n e := by
  induction text using ofText.induct generalizing n with
  | case1 => cases h
  | case2 => cases h
  | case3 c hc =>
    rw [ofText, if_neg hc] at h
    cases h
  | case4 d rest =>
    rw [ofText, if_pos rfl] at h
    cases h
  | case5 d rest e' he hne ih =>
    rw [ofText, if_neg hne, if_pos rfl, he] at h
    obtain ⟨m, hrest, rfl⟩ := cons_eq_unknownEscape h
    rw [List.take_succ_cons, List.take_succ_cons, List.cons_append, List.cons_append, ofText,
      if_neg hne, if_pos rfl, he]
    dsimp only
    rw [ih hrest, cons]
  | case6 d rest he hne =>
    rw [ofText, if_neg hne, if_pos rfl, he] at h
    cases h
    rw [List.take_succ_cons, List.take_succ_cons, List.cons_append, List.cons_append, ofText,
      if_neg hne, if_pos rfl, he]
  | case7 c d rest hc hc' ih =>
    rw [ofText, if_neg hc, if_neg hc'] at h
    obtain ⟨m, hrest, rfl⟩ := cons_eq_unknownEscape h
    have ih := ih hrest
    rw [List.take_succ_cons, List.cons_append] at ih
    rw [List.take_succ_cons, List.take_succ_cons, List.cons_append, List.cons_append, ofText,
      if_neg hc, if_neg hc', ih, cons]

end StringReading

namespace Reading

/-- The number of characters that what is read reaches over. -/
def reach : Reading → Nat
  | space n => n
  | lexeme l => l.length
  | fault _ start length => start + length
  | unmatched => 0

variable {c : Char} {chars tail : List Char}

/-- Characters that are not reached may be replaced by a new line. -/
theorem ofText_cut {r : Reading} (h : ofText .standard c (chars ++ tail) = r)
    (hreach : r.reach ≤ (c :: chars).length)
    (hr : ∀ start length, r ≠ fault .unterminatedString start length) (more : List Char) :
    ofText .standard c (chars ++ '\n' :: more) = r := by
  cases ofText_eq_iff.1 h with
  | space hc =>
    rw [← List.cons_append] at hreach ⊢
    have hcut : (c :: chars ++ tail).takeWhile Lexeme.isSpace = (c :: chars).takeWhile Lexeme.isSpace :=
      takeWhile_cut hreach
    rw [hcut, ← takeWhile_append_cons (c :: chars) more Lexeme.separates_newline.isSpace]
    exact (Begins.space hc).eq
  | number hs hc =>
    rw [← List.cons_append] at hreach ⊢
    have hcut : Lexeme.number (c :: chars ++ tail) = Lexeme.number (c :: chars) :=
      Lexeme.number_cut hreach
    rw [hcut, ← Lexeme.number_append Lexeme.separates_newline (c :: chars) more]
    exact (Begins.number hs hc).eq
  | word hs hd hc =>
    rw [← List.cons_append] at hreach ⊢
    have hcut : Lexeme.word .standard (c :: chars ++ tail) = Lexeme.word .standard (c :: chars) :=
      Lexeme.word_cut hreach
    rw [hcut, ← Lexeme.word_append Lexeme.separates_newline .standard (c :: chars) more]
    exact (Begins.word hs hd hc).eq
  | @string contents n hc hs =>
    have hn : n ≤ chars.length := Nat.le_of_succ_le_succ hreach
    have htake := StringReading.ofText_take hs
    rw [List.take_append_of_le_length hn] at htake
    have happend := StringReading.ofText_append htake (chars.drop n ++ '\n' :: more)
    rw [← List.append_assoc, List.take_append_drop] at happend
    exact (Begins.string hc happend).eq
  | @unknownEscape n e hc hs =>
    have hn : n + 2 ≤ chars.length := by
      have : n + 1 + 2 ≤ chars.length + 1 := hreach
      omega
    have hcut := StringReading.ofText_unknownEscape hs (chars.drop (n + 2) ++ '\n' :: more)
    rw [List.take_append_of_le_length hn, ← List.append_assoc, List.take_append_drop] at hcut
    exact (Begins.unknownEscape hc hcut).eq
  | unterminated => exact absurd rfl (hr _ _)
  | symbol hc hs =>
    rw [← List.cons_append] at hs
    have hcut := Lexeme.symbol?_cut hs hreach
    rw [← Lexeme.symbol?_append Lexeme.separates_newline c chars more] at hcut
    exact (Begins.symbol hc hcut).eq
  | unexpected hc hs ht =>
    have hcut : Lexeme.symbol? .standard (c :: chars) = none := by
      refine Lexeme.symbol?_eq_none_iff.2 fun p hp hstart => ?_
      refine Lexeme.symbol?_eq_none_iff.1 hs p hp (hstart.trans ?_)
      exact List.prefix_append (c :: chars) tail
    rw [← Lexeme.symbol?_append Lexeme.separates_newline c chars more] at hcut
    exact (Begins.unexpected hc hcut ht).eq
  | unmatched _ _ ht => exact absurd ht (by decide)

end Reading

namespace Stream

variable {offset begins : Nat} {text : List Char} {s : Stream} {e : LexError}

/-- What is faulty has characters. -/
theorem Cuts.lt_stop_of_failed (h : Cuts .standard offset text s) (hs : s.ending = .failed begins e) :
    offset < e.span.stop := by
  induction h with
  | space _ _ ih => exact Nat.lt_of_le_of_lt (Nat.le_add_right _ _) (ih hs)
  | lexeme _ _ _ ih => exact Nat.lt_of_le_of_lt (Nat.le_add_right _ _) (ih hs)
  | fault hr =>
    cases hs
    rw [Span.stop_ofLength]
    cases Reading.ofText_eq_iff.1 hr with
    | unknownEscape => omega
    | unterminated => exact Nat.lt_add_of_pos_right (Nat.succ_pos _)
    | unexpected => exact Nat.lt_succ_self _
  | _ => cases hs

/-- A text may be cut off behind what is faulty and continued on a new line. -/
theorem Cuts.cutoff (h : Cuts .standard offset text s) (hs : s.ending = .failed begins e)
    (he : e.cause ≠ .unterminatedString) (more : List Char) :
    Cuts .standard offset (text.take (e.span.stop - offset) ++ '\n' :: more) s := by
  -- A piece is read alike if what is kept of the text behind it is followed by a new line.
  have piece : ∀ {c : Char} {chars tail : List Char} {r : Reading} (k : Nat),
      Reading.ofText .standard c (chars ++ tail) = r → r.reach = (c :: chars).length →
      (∀ start length, r ≠ .fault .unterminatedString start length) →
      Reading.ofText .standard c (chars ++ (tail.take k ++ '\n' :: more)) = r := by
    intro c chars tail r k hr hreach hne
    rw [← List.take_append_drop k tail, ← List.append_assoc] at hr
    rw [← List.append_assoc]
    refine Reading.ofText_cut hr ?_ hne more
    rw [hreach, ← List.cons_append, List.length_append]
    exact Nat.le_add_right _ _
  induction h with
  | @space offset c rest n s hr hcuts ih =>
    have hle := Reading.le_of_space hr
    obtain ⟨chars, tail, rfl, hn, hdrop⟩ := exists_split (Nat.ne_of_gt hle.1) hle.2
    rw [hdrop] at hcuts ih
    rw [take_piece hn (Nat.le_of_lt (hcuts.lt_stop_of_failed hs))]
    exact space_append (piece _ hr hn nofun) hn (ih hs)
  | @lexeme offset c rest l s hr hl hcuts ih =>
    obtain ⟨chars, tail, rfl, hn, hdrop⟩ := exists_split hl (Reading.le_of_lexeme hr)
    have htake : (c :: (chars ++ tail)).take l.length = c :: chars := by
      rw [hn, ← List.cons_append, List.take_left]
    rw [hdrop] at hcuts ih
    rw [take_piece hn (Nat.le_of_lt (hcuts.lt_stop_of_failed hs)), htake]
    exact lexeme_append (piece _ hr hn nofun) hn (ih hs)
  | @fault offset c rest cause start length hr =>
    have hlt := (Cuts.fault hr).lt_stop_of_failed hs
    cases hs
    rw [Span.stop_ofLength] at hlt ⊢
    have hle := Reading.le_of_fault hr
    obtain ⟨chars, tail, rfl, hn, -⟩ := exists_split (n := start + length) (by omega) hle
    have hstop : begins + start + length - begins = (c :: chars).length := by omega
    rw [hstop, ← List.cons_append, List.take_left]
    refine .fault (Reading.ofText_cut hr (Nat.le_of_eq hn) ?_ more)
    rintro _ _ ⟨⟩
    exact he rfl
  | _ => cases hs

/-- **What is faulty is decided by the text up to its end**: a text that is cut off there and continued on
a new line has the same tokens and the same fault. -/
theorem ofText_cutoff (hs : (ofText .standard text).ending = .failed begins e)
    (he : e.cause ≠ .unterminatedString) (more : List Char) :
    ofText .standard (text.take e.span.stop ++ '\n' :: more) = ofText .standard text :=
  (ofText_cuts _ _).unique ((ofText_cuts .standard text).cutoff hs he more)

end Stream

end Curly
