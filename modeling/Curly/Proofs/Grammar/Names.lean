import Curly.Proofs.Grammar.Harmless
import Curly.Proofs.Run.Located
import Curly.Proofs.Token.Places

/-!
# The place of a name without a binding

An error about a name without a binding marks the name: under the span of the error stands the name,
perhaps in parentheses. Only an assignment in parentheses is marked in the wrong place, since its span
begins with a parenthesis and not with the name.

## Main definitions

* `Bracketed`: some characters in any number of parentheses.

## Main statements

* `Phrase.Derives.bracketed`: under the tree of a name stands the name in parentheses.
* `Phrase.Derives.assignment_front`: an assignment begins with its name or with a parenthesis.
* `Tree.run_marks_name`: where the error about a name without a binding is.
-/

namespace Curly

/-- `Bracketed chars text`: the text is the characters in any number of parentheses, with white space
around them. -/
inductive Bracketed (chars : List Char) : List Char → Prop where
  | bare : Bracketed chars chars
  | parenthesized {blanks inner blanks'} (hblanks : ∀ c ∈ blanks, Lexeme.isSpace c = true)
      (h : Bracketed chars inner) (hblanks' : ∀ c ∈ blanks', Lexeme.isSpace c = true) :
      Bracketed chars ('(' :: (blanks ++ (inner ++ (blanks' ++ [')']))))

/-- Parentheses make a text longer. -/
theorem Bracketed.eq_or_length_lt {chars text : List Char} (h : Bracketed chars text) :
    text = chars ∨ chars.length < text.length := by
  induction h with
  | bare => exact .inl rfl
  | parenthesized _ _ _ ih =>
    refine .inr ?_
    simp only [List.length_cons, List.length_append]
    rcases ih with rfl | hlt
    · omega
    · omega

namespace Lexeme.Spells

variable {chars : List Char} {payload : Payload}

/-- An identifier says the characters that it is spelled with, the first of which is no parenthesis. -/
theorem eq_of_name {name : String} (h : Spells chars .identifier (.name name)) :
    chars = name.toList ∧ ∃ c rest, chars = c :: rest ∧ isWordStart c = true := by
  cases h with
  | identifier hc _ _ => exact ⟨String.toList_ofList.symm, _, _, rfl, hc⟩

end Lexeme.Spells

namespace Phrase.Derives

variable {d : Nat} {x : Phrase} {ts before after : List Token} {T : Tree} {text : List Char}
  {s : Span} {n : String}

/-- Under the tree of a name stands the name, in as many parentheses as it is written in. -/
theorem bracketed (h : Derives d x ts T)
    (htokens : (Stream.ofText .standard text).tokens = before ++ (ts ++ after))
    (hT : T = .reference s n) : Bracketed n.toList (s.slice text) := by
  induction h generalizing before after s with
  | evaluation _ ih => exact ih htokens hT
  | operation _ ih => exact ih htokens hT
  | tighter _ ih => exact ih htokens hT
  | unsigned _ ih => exact ih htokens hT
  | uncalled _ ih => exact ih htokens hT
  | @reference d t _ hn =>
    cases hT
    have hmem : t ∈ (Stream.ofText .standard text).tokens := by
      rw [htokens]
      simp
    obtain ⟨hspells, -, -⟩ := Stream.slice_token hmem (by rw [hn.1]; decide)
    rw [hn.1, hn.2] at hspells
    rw [hspells.eq_of_name.1]
    exact .bare
  | @parenthesized d opener ts T closer ho h hc ih =>
    obtain ⟨s', rfl, rfl⟩ :
        ∃ s', T = .reference s' n ∧ s = opener.span.union closer.span := by
      cases T <;> simp_all [Tree.withSpan]
    have hlegible : Legible ts := (Stream.legible_among htokens).tail.left [closer]
    obtain ⟨blanks, blanks', hblanks, hblanks', hslice⟩ := Stream.slice_enclosed htokens
      (h.covers hlegible) (by rw [ho]; decide) (by rw [hc]; decide)
    -- The parentheses are spelled by themselves.
    have hlexeme : ∀ t ∈ opener :: (ts ++ [closer]), t.kind.isGeneric = false →
        t.lexeme = t.kind.text.toList := by
      intro t ht hkind
      have hmem : t ∈ (Stream.ofText .standard text).tokens := by
        rw [htokens]
        exact List.mem_append_right _ (List.mem_append_left _ ht)
      obtain ⟨hspells, hslice, -⟩ := Stream.slice_token hmem fun hk => by
        rw [hk] at hkind
        cases hkind
      exact hslice ▸ hspells.eq_text hkind
    have hopener := hlexeme opener (by simp) (by rw [ho]; rfl)
    have hcloser := hlexeme closer (by simp) (by rw [hc]; rfl)
    rw [ho] at hopener
    rw [hc] at hcloser
    rw [hslice, hopener, hcloser]
    have htokens' : (Stream.ofText .standard text).tokens =
        (before ++ [opener]) ++ (ts ++ ([closer] ++ after)) := by
      rw [htokens]
      simp
    exact .parenthesized hblanks (ih htokens' rfl) hblanks'
  | _ => cases hT

/-- An assignment begins with its name, or with a parenthesis around it. -/
theorem assignment_front (h : Derives d x ts T) {V : Tree} (hT : T = .assignment s n V) :
    ∃ name ∈ ts, name.IsName n ∧
      ∃ t rest, ts = t :: rest ∧ (t = name ∨ t.kind = .leftParen) := by
  induction h generalizing s with
  | evaluation _ ih => exact ih hT
  | operation _ ih => exact ih hT
  | tighter _ ih => exact ih hT
  | unsigned _ ih => exact ih hT
  | uncalled _ ih => exact ih hT
  | assignment hn =>
    cases hT
    exact ⟨_, List.mem_cons_self .., hn, _, _, rfl, .inl rfl⟩
  | @parenthesized d opener ts T closer ho _ _ ih =>
    obtain ⟨s', rfl⟩ : ∃ s', T = .assignment s' n V := by
      cases T <;> simp_all [Tree.withSpan]
    obtain ⟨name, hmem, hname, -⟩ := ih rfl
    exact ⟨name, List.mem_cons_of_mem _ (List.mem_append_left _ hmem), hname, _, _, rfl, .inr ho⟩
  | _ => cases hT

/-- What is marked of an assignment is its name, unless it begins with a parenthesis. -/
theorem marks_assignment {V : Tree} (h : Derives d x ts (.assignment s n V))
    (htokens : (Stream.ofText .standard text).tokens = before ++ (ts ++ after)) :
    Bracketed n.toList ((Span.ofLength s.start n.length).slice text) ↔
      (s.slice text).head? ≠ some '(' := by
  have hlegible : Legible ts := Stream.legible_among htokens
  have hmem : ∀ t ∈ ts, t ∈ (Stream.ofText .standard text).tokens := fun t ht => by
    rw [htokens]
    exact List.mem_append_right _ (List.mem_append_left _ ht)
  obtain ⟨name, hname, hn, t, rest, rfl, hfront⟩ := h.assignment_front rfl
  have hstart : s.start = t.span.start := by
    obtain ⟨_, _, ⟨⟩, _, hstart, _⟩ := h.covers hlegible
    exact hstart
  -- A name begins with a letter or an underscore.
  obtain ⟨hspells, -, -⟩ := Stream.slice_token (hmem name hname) (by rw [hn.1]; decide)
  rw [hn.1, hn.2] at hspells
  obtain ⟨hchars, c, chars, hc, hword⟩ := hspells.eq_of_name
  have hne : c ≠ '(' := by
    rintro rfl
    exact absurd hword (by decide)
  have hlength : n.length = chars.length + 1 := by
    rw [← String.length_toList, ← hchars, hc, List.length_cons]
  have hlong := h.length_le_of_assignment hlegible rfl
  have hfirst : (s.slice text).head? = (text.drop s.start).head? := by
    refine Span.head?_slice ?_ text
    rw [Span.length]
    omega
  have htoken : t.kind ≠ .endOfInput →
      (t.span.slice text).head? = (text.drop s.start).head? := by
    intro hk
    have hlt := (Stream.ofText_cuts .standard text).start_lt_stop t
      (hmem t (List.mem_cons_self ..)) hk
    rw [hstart]
    exact Span.head?_slice (Nat.sub_pos_of_lt hlt) text
  rcases hfront with rfl | hparen
  · have hmarked : Span.ofLength s.start n.length = t.span := by
      have hfits := hlegible.length_eq_of_name hname hn.1 hn.2
      have hle := t.span.start_le
      rw [Span.length] at hfits
      ext
      · exact hstart
      · rw [Span.stop_ofLength]
        omega
    have hbegins := htoken (by rw [hn.1]; decide)
    rw [hmarked, hchars, hfirst, ← hbegins, hc]
    exact ⟨fun _ h => hne (Option.some.inj h), fun _ => .bare⟩
  · have hkind : t.kind ≠ .endOfInput := by
      rw [hparen]
      decide
    obtain ⟨hspells', -, -⟩ := Stream.slice_token (hmem t (List.mem_cons_self ..)) hkind
    rw [hparen] at hspells'
    have hbegins := htoken hkind
    rw [hspells'.eq_text rfl] at hbegins
    have hparen' : (text.drop s.start).head? = some '(' := hbegins.symm
    rw [hfirst, hparen']
    refine ⟨fun hmarked => ?_, fun h => absurd rfl h⟩
    rcases hmarked.eq_or_length_lt with heq | hlt
    · -- The name would begin with a parenthesis.
      have hmark : ((Span.ofLength s.start n.length).slice text).head? = some '(' := by
        rw [Span.head?_slice (by rw [Span.length_ofLength, hlength]; exact Nat.succ_pos _)]
        exact hparen'
      rw [heq, ← hchars, hc] at hmark
      exact absurd (Option.some.inj hmark) hne
    · rw [String.length_toList, Span.slice, List.length_take, Span.length_ofLength] at hlt
      omega

end Phrase.Derives

namespace Tree

variable {text : List Char} {T : Tree} {c : Cursor} {limits : Limits} {r r' : Run} {n : String}
  {s : Span}

/-- **Names without a binding are marked.** If a run of statements that were read fails for a name without
a binding, it does so at a node that reads this name or assigns to it, and under the span of the error
stands the name, perhaps in parentheses, unless the node is an assignment that is written in parentheses
itself. -/
theorem run_marks_name (hread : read .statements text = .ok T c)
    (hrun : T.run limits r = .error (.error ⟨.undefinedVariable n, s⟩) r') :
    ∃ path N, T.at? path = some N ∧ N.Raises (.undefinedVariable n) s ∧
      (Bracketed n.toList (s.slice text) ↔
        ¬((∃ s' V, N = .assignment s' n V) ∧ (N.span.slice text).head? = some '(')) := by
  obtain ⟨path, N, hN, hraises | ⟨_, _, _, hcause⟩⟩ | hdeep :=
    (run_located T limits).of_error trivial hrun
  case inr => cases hdeep
  case inl.inr => cases hcause
  refine ⟨path, N, hN, hraises, ?_⟩
  have hblock : ∀ s es t, N ≠ .block s es t := by
    rintro s es t rfl
    cases hraises
  have himplicit : ¬T.Implicit path := not_implicit hN <| by
    rintro s rfl
    cases hraises
  obtain ⟨us, eof, htokens, hkind, x, vs, d, ⟨before, after, hinfix⟩, hderives⟩ :=
    read_derives hread hN hblock himplicit
  have htokens' : (Stream.ofText .standard text).tokens = before ++ (vs ++ (after ++ [eof])) := by
    rw [htokens, ← hinfix, List.append_assoc, List.append_assoc]
  cases hraises with
  | reference => exact ⟨fun _ h => (nomatch h.1), fun _ => hderives.bracketed htokens' rfl⟩
  | nameless => exact absurd rfl hderives.plays.meant.1
  | @assignment s' _ V =>
    rw [hderives.marks_assignment htokens']
    exact ⟨fun h h' => h h'.2, fun h h' => h ⟨⟨s', V, rfl⟩, h'⟩⟩

/-- The run of a text, if it fails with an error. -/
theorem exists_failed_run (text : List Char) (limits : Limits) (r : Run) (e : RuntimeError)
    (h : ((Cursor.result? (read .statements text)).bind fun T => Run.error? (T.run limits r)) =
      some e) :
    ∃ T c r', read .statements text = .ok T c ∧ T.run limits r = .error (.error e) r' := by
  obtain ⟨T, hT, hrun⟩ := Option.bind_eq_some_iff.1 h
  obtain ⟨c, hc⟩ := Cursor.exists_of_result? hT
  obtain ⟨r', hr'⟩ := Run.exists_of_error? hrun
  exact ⟨T, c, r', hc, hr'⟩

/-- A name in parentheses. -/
theorem run_marks_name_parenthesized :
    ∃ T c r', read .statements "true; ( x)".toList = .ok T c ∧
      T.run { loop := none } ⟨[[]], none, none⟩ =
        .error (.error ⟨.undefinedVariable "x", .ofLength 6 4⟩) r' ∧
      ∃ path N, T.at? path = some N ∧ N.Raises (.undefinedVariable "x") (.ofLength 6 4) ∧
        (Bracketed "x".toList ((Span.ofLength 6 4).slice "true; ( x)".toList) ↔
          ¬((∃ s' V, N = .assignment s' "x" V) ∧
            (N.span.slice "true; ( x)".toList).head? = some '(')) := by
  obtain ⟨T, c, r', hread, hrun⟩ := exists_failed_run "true; ( x)".toList
    { loop := none } ⟨[[]], none, none⟩ ⟨.undefinedVariable "x", .ofLength 6 4⟩
    (by decide +kernel)
  exact ⟨T, c, r', hread, hrun, run_marks_name hread hrun⟩

/-- An assignment in parentheses is marked from the parenthesis on. -/
theorem run_marks_parenthesis :
    ∃ T c r', read .statements "(ab = 1)".toList = .ok T c ∧
      T.run { loop := none } ⟨[[]], none, none⟩ =
        .error (.error ⟨.undefinedVariable "ab", .ofLength 0 2⟩) r' ∧
      ¬Bracketed "ab".toList ((Span.ofLength 0 2).slice "(ab = 1)".toList) := by
  obtain ⟨T, c, r', hread, hrun⟩ := exists_failed_run "(ab = 1)".toList
    { loop := none } ⟨[[]], none, none⟩ ⟨.undefinedVariable "ab", .ofLength 0 2⟩
    (by decide +kernel)
  refine ⟨T, c, r', hread, hrun, fun h => ?_⟩
  rcases h.eq_or_length_lt with heq | hlt
  · exact absurd heq (by decide)
  · exact absurd hlt (by decide)

end Tree

end Curly
