import Curly.Proofs.Grammar.Slices
import Curly.Proofs.Grammar.Units
import Curly.Proofs.Token.Places

/-!
# Statements in braces

Statements that make up a text of their own are read like statements in braces: up to the end of input in
one case, up to the closing brace in the other.

## Main definitions

* `braced`: a text in braces behind the word for a block that is run once.

## Main statements

* `Stream.ofText_append_brace`, `Stream.ofText_of_append`: the tokens of a text with a closing brace
  behind it are its own and the brace, and the other way round.
* `TextUnit.Derives.braced`, `TextUnit.Derives.unbraced`: statements make up the block in braces.
* `Tree.read_braced`: a text is read as statements if and only if it is read so in braces.
-/

namespace Curly

/-- The text in braces behind the word for a block that is run once. -/
def braced (text : List Char) : List Char :=
  'd' :: 'o' :: ' ' :: '\x7b' :: (text ++ ['\x7d'])

theorem Lexeme.separates_rightBrace : Separates '\x7d' := ⟨rfl, rfl, by decide, by decide⟩

namespace Stream

/-- The word in front of the braces. -/
def wordToken : Token := ⟨.doWord, .ofLength 0 2, .none, ['d', 'o']⟩

/-- The opening brace. -/
def openerToken : Token := ⟨.leftBrace, .ofLength 3 1, .none, ['\x7b']⟩

/-- The closing brace behind `n` characters. -/
def closerToken (n : Nat) : Token := ⟨.rightBrace, .ofLength n 1, .none, ['\x7d']⟩

variable {text : List Char} {us r : List Token} {t : Token}

/-- The word and the opening brace are tokens of their own. -/
theorem ofText_braced (text : List Char) : ofText .standard (braced text) =
    cons wordToken (cons openerToken ((ofText .standard (text ++ ['\x7d'])).shift 4)) := by
  have hinner := (ofText_cuts .standard (text ++ ['\x7d'])).shift 4
  have hopener : Cuts .standard 3 ('\x7b' :: (text ++ ['\x7d']))
      (cons openerToken ((ofText .standard (text ++ ['\x7d'])).shift 4)) := by
    refine .lexeme (l := ⟨.leftBrace, .none, 1⟩) rfl Nat.one_ne_zero ?_
    rwa [Nat.zero_add] at hinner
  have hspace : Reading.ofText .standard ' ' ('\x7b' :: (text ++ ['\x7d'])) = .space 1 := rfl
  have hword : Reading.ofText .standard 'd' ('o' :: ' ' :: '\x7b' :: (text ++ ['\x7d'])) =
      .lexeme ⟨.doWord, .none, 2⟩ := rfl
  refine (ofText_cuts .standard (braced text)).unique (.lexeme hword (by decide) ?_)
  exact .space hspace hopener

/-- Behind a text that can be cut, a closing brace is a token of its own. -/
theorem ofText_append_brace (h : ofText .standard text = ⟨us ++ [t], .exhausted⟩) :
    ofText .standard (text ++ ['\x7d']) =
      ⟨us ++ [closerToken text.length, .endOfInput (text.length + 1)], .exhausted⟩ := by
  have hcloser : Cuts .standard (0 + text.length) ['\x7d']
      ⟨[closerToken text.length, .endOfInput (text.length + 1)], .exhausted⟩ := by
    rw [Nat.zero_add]
    exact .lexeme (l := ⟨.rightBrace, .none, 1⟩) rfl Nat.one_ne_zero .done
  have hcuts := (ofText_cuts .standard text).append Lexeme.separates_rightBrace (by rw [h]) hcloser
  rw [h, List.dropLast_concat] at hcuts
  exact (ofText_cuts _ _).unique hcuts

/-- A text in front of a token that begins where it ends can be cut. -/
theorem ofText_of_append {more : List Char} (h : (ofText .standard (text ++ more)).tokens = us ++ t :: r)
    (ht : t.span.start = text.length) :
    ofText .standard text = ⟨us ++ [.endOfInput text.length], .exhausted⟩ := by
  have hcuts := (ofText_cuts .standard (text ++ more)).front h
  rw [Nat.sub_zero, ht, List.take_left] at hcuts
  exact (ofText_cuts _ _).unique hcuts

end Stream

namespace Phrase.Derives

variable {d : Nat} {x : Phrase} {ts : List Token} {T B : Tree} {s : Span}

/-- A block that is run once is derived from its word and the block, or it stands in parentheses. -/
theorem doBlock_cases (h : Derives d x ts T) (hT : T = .doBlock s B) :
    (∃ word b, ts = word :: b ∧ Derives d .block b B) ∨
      ∃ opener rest, ts = opener :: rest ∧ opener.kind = .leftParen := by
  induction h with
  | evaluation _ ih =>
    exact (ih hT).imp_left fun ⟨word, b, hts, hb⟩ => ⟨word, b, hts, hb.mono (Nat.le_succ _)⟩
  | operation _ ih => exact ih hT
  | tighter _ ih => exact ih hT
  | unsigned _ ih => exact ih hT
  | uncalled _ ih => exact ih hT
  | doBlock _ hb =>
    cases hT
    exact .inl ⟨_, _, rfl, hb.mono (Nat.le_add_right _ 3)⟩
  | parenthesized ho => exact .inr ⟨_, _, rfl, ho⟩
  | _ => cases hT

end Phrase.Derives

namespace TextUnit

variable {d n : Nat} {us vs : List Token} {eof : Token} {s : Span} {es : List Tree}
  {t : Option Tree}

/-- Statements make up a block in braces, wherever it stands. -/
theorem Derives.braced (h : Derives d .statements (us ++ [eof]) (.block s es t)) (n : Nat)
    (word opener closer end' : Token) (hw : word.kind = .doWord)
    (ho : opener.kind = .leftBrace) (hc : closer.kind = .rightBrace) (he : end'.kind = .endOfInput) :
    ∃ es' t', List.Forall₂ (Tree.Similar (Span.Shifted n)) es es' ∧
      Tree.SimilarTails (Span.Shifted n) t t' ∧
      Derives (d + 5) .single (word :: opener :: (us.map (·.shift n) ++ [closer, end']))
        (.doBlock (word.span.union (opener.span.union closer.span))
          (.block (opener.span.union closer.span) es' t')) := by
  generalize hall : us ++ [eof] = all at h
  cases h with
  | @statements ends ts parts es t _ hends hlisting hparts _ =>
    obtain rfl := init_eq_of_append hall
    obtain ⟨parts', es', t', hlisting', hparts', hes, ht, -⟩ := hlisting.transport_statements
      (Span.shifted_joins n) hparts (Token.similar_map_shift ts n)
    have hends' := hends.transport (Token.similar_map_shift ends n)
    have hblock : Phrase.Derives (d + 1) .block _ _ := .block ho hends' hlisting' hparts' hc
    have hstatement := (Phrase.Derives.doBlock hw hblock).asStatement (by simp)
    refine ⟨es', t', hes, ht, ?_⟩
    have hsingle : Derives (d + 5) .single _
        (.doBlock (word.span.union (opener.span.union closer.span)) _) :=
      .single .nil hstatement .nil he
    simpa only [List.map_append, List.nil_append, List.cons_append, List.append_assoc] using hsingle

/-- What stands in the braces of a block that is run once are statements. -/
theorem Derives.unbraced {word : Token} {B : Tree}
    (h : Derives d .single (word :: us) (.doBlock s B)) (hw : word.kind = .doWord) :
    ∃ opener ends ts parts es t closer r, us = opener :: (ends ++ (ts ++ closer :: r)) ∧
      EndsOfLine ends ∧ Listing ts parts es t ∧
      (∀ p ∈ parts, Phrase.Derives d .statement p.1 p.2) ∧ closer.kind = .rightBrace ∧
      B = .block (opener.span.union closer.span) es t := by
  generalize hall : word :: us = all at h
  generalize hB : Tree.doBlock s B = T at h
  cases h with
  | @single before ts T after eof hbefore h hafter heof =>
    -- The word is no end of line, so that the statement begins with it.
    obtain rfl : before = [] := by
      cases before with
      | nil => rfl
      | cons e before =>
        obtain ⟨rfl, -⟩ := List.cons.inj hall
        exact absurd (hw.symm.trans (hbefore _ (List.mem_cons_self ..))) (by decide)
    rcases h.doBlock_cases hB.symm with ⟨word', b, rfl, hb⟩ | ⟨opener, rest, rfl, ho⟩
    · have hus : us = b ++ (after ++ [eof]) := (List.cons.inj hall).2
      cases hb with
      | @block _ opener ends ts parts es t closer _ hends hlisting hparts hc =>
        refine ⟨opener, ends, ts, parts, es, t, closer, after ++ [eof], ?_, hends, hlisting,
          fun p hp => (hparts p hp).mono (Nat.le_succ _), hc, rfl⟩
        simp only [hus, List.cons_append, List.append_assoc, List.nil_append]
    · obtain ⟨rfl, -⟩ := List.cons.inj hall
      exact absurd (hw.symm.trans ho) (by decide)

end TextUnit

namespace Tree

variable {text : List Char} {T : Tree} {c : Cursor}

/-- Statements are read in braces as well, unless they are nested too deeply there. -/
theorem read_braced_of_statements (h : read .statements text = .ok T c) :
    (∃ c, read .single (braced text) = .error .tooDeep c) ∨
      ∃ s es t c, read .single (braced text) =
        .ok (.doBlock s (.block (.ofLength 3 (text.length + 2)) es t)) c := by
  obtain ⟨hending, hT⟩ := read_sound h
  obtain ⟨us, eof, htokens, -⟩ := (Stream.proper text).ends hending
  obtain ⟨es, t, rfl⟩ := hT.exists_block nofun
  have hstream : Stream.ofText .standard text = ⟨us ++ [eof], .exhausted⟩ := by
    rw [← htokens, ← hending]
  rw [htokens] at hT
  obtain ⟨es', t', -, -, hbraced⟩ := hT.braced 4 Stream.wordToken Stream.openerToken
    ((Stream.closerToken text.length).shift 4) ((Token.endOfInput (text.length + 1)).shift 4)
    rfl rfl rfl rfl
  have hspan : Stream.openerToken.span.union ((Stream.closerToken text.length).shift 4).span =
      .ofLength 3 (text.length + 2) := by
    ext
    · change min 3 (text.length + 4) = 3
      omega
    · change max (3 + 1) (text.length + 1 + 4) = 3 + (text.length + 2)
      omega
  have htokens' : (Stream.ofText .standard (braced text)).tokens =
      Stream.wordToken :: Stream.openerToken :: (us.map (·.shift 4) ++
        [(Stream.closerToken text.length).shift 4,
          (Token.endOfInput (text.length + 1)).shift 4]) := by
    rw [Stream.ofText_braced, Stream.ofText_append_brace hstream, Stream.shift, List.map_append]
    rfl
  rw [← htokens', hspan] at hbraced
  rcases read_complete nestingLimit ⟨_, hbraced⟩ with ⟨c, hc⟩ | ⟨c, hc⟩
  · exact .inl ⟨c, hc⟩
  · exact .inr ⟨_, es', t', c, hc⟩

/-- If the braces that are read are those around the text, what stands between them are statements. -/
theorem read_statements_of_braced {s : Span} {es : List Tree} {t : Option Tree}
    (h : read .single (braced text) =
      .ok (.doBlock s (.block (.ofLength 3 (text.length + 2)) es t)) c) :
    ∃ s' es' t' c', read .statements text = .ok (.block s' es' t') c' ∧
      List.Forall₂ (Similar (Span.Shifted 4)) es' es ∧ SimilarTails (Span.Shifted 4) t' t := by
  obtain ⟨-, hT⟩ := read_sound h
  rw [Stream.ofText_braced] at hT
  obtain ⟨opener, ends, ts, parts, es, t, closer, r, htokens, hends, hlisting, hparts, hc, hB⟩ :=
    hT.unbraced rfl
  obtain ⟨hopener, htokens⟩ := List.cons.inj htokens
  -- Each of these tokens is one of the text with the closing brace behind it, four characters further on.
  rw [← List.append_assoc] at htokens
  obtain ⟨us, r', htext, hus, hr⟩ := List.map_eq_append_iff.1 htokens
  obtain ⟨closer', r', rfl, rfl, rfl⟩ := List.map_eq_cons_iff.1 hr
  obtain ⟨ends', ts', rfl, rfl, rfl⟩ := List.map_eq_append_iff.1 hus
  obtain ⟨hspan, rfl, rfl⟩ := Tree.block.inj hB
  have hlength : closer'.span.length = 1 := by
    have hmem : closer' ∈ (Stream.ofText .standard (text ++ ['\x7d'])).tokens := by
      rw [htext]
      exact List.mem_append_right _ (List.mem_cons_self ..)
    have hkind : closer'.kind = .rightBrace := hc
    obtain ⟨hspells, hslice, hlength⟩ := Stream.slice_token hmem (by rw [hkind]; decide)
    rw [hslice, hkind] at hspells
    rw [hlength, hspells.eq_text rfl]
    rfl
  have hstart : closer'.span.start = text.length := by
    have hstop := congrArg Span.stop hspan
    rw [← hopener] at hstop
    change 3 + (text.length + 2) = max (3 + 1) (closer'.span.stop + 4) at hstop
    have := closer'.span.start_le
    rw [Span.length] at hlength
    omega
  have hstream := Stream.ofText_of_append htext hstart
  obtain ⟨parts', es', t', hlisting', hparts', hes, ht, -⟩ := hlisting.transport_statements
    (Span.unshifted_joins 4) hparts (Token.similar_map_unshift ts' 4)
  have hends' := hends.transport (Token.similar_map_unshift ends' 4)
  have hderives : TextUnit.Derives nestingLimit .statements (Stream.ofText .standard text).tokens
      (.block (TextUnit.cover (es' ++ t'.toList)) es' t') := by
    rw [hstream, List.append_assoc]
    exact .statements hends' hlisting' hparts' rfl
  obtain ⟨c', hc'⟩ := read_of_derives hderives
  exact ⟨_, es', t', c', hc', hes.flip.imp fun _ _ h => h.symm fun _ _ h => h,
    ht.symm fun _ _ h => h⟩

/-- **Braces are transparent.** Unless it is nested too deeply in braces, a text is read as statements if
and only if it is read in braces as a block that is run once, whose braces are those around the text. The
statements and the tail are then the same, with all spans four characters further on in braces. -/
theorem read_braced (text : List Char) :
    ((∃ c, read .single (braced text) = .error .tooDeep c) ∨
      ((∃ T c, read .statements text = .ok T c) ↔
        ∃ s es t c, read .single (braced text) =
          .ok (.doBlock s (.block (.ofLength 3 (text.length + 2)) es t)) c)) ∧
    ∀ s es t c, read .single (braced text) =
        .ok (.doBlock s (.block (.ofLength 3 (text.length + 2)) es t)) c →
      ∃ s' es' t' c', read .statements text = .ok (.block s' es' t') c' ∧
        List.Forall₂ (Similar (Span.Shifted 4)) es' es ∧ SimilarTails (Span.Shifted 4) t' t := by
  refine ⟨?_, fun _ _ _ _ => read_statements_of_braced⟩
  by_cases hdeep : ∃ c, read .single (braced text) = .error .tooDeep c
  · exact .inl hdeep
  · refine .inr ⟨?_, ?_⟩
    · rintro ⟨T, c, h⟩
      exact (read_braced_of_statements h).resolve_left hdeep
    · rintro ⟨s, es, t, c, h⟩
      obtain ⟨s', es', t', c', h', -, -⟩ := read_statements_of_braced h
      exact ⟨_, c', h'⟩

end Tree

end Curly
