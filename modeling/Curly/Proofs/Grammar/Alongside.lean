import Curly.Proofs.Grammar.Soundness
import Curly.Proofs.Reading.Alongside
import Curly.Proofs.Tree.Similar

/-!
# The rules side by side

Every rule comes to the same end on tokens that match. Where it asks whether something in front of an
equals sign is a name, it looks at the length of a span; there the spans of both sides may differ, but
what they say about names does not.

## Main definitions

* `Tree.Twin`: trees of the same form that are names in the same cases.
* `Abreast`: what two readings in progress have in common.
* `Rules.Alongside`: the rules of both sides read alike.

## Main statements

* `rulesAt_alongside`: the rules, whatever room they have.
* `TextUnit.read_alongside`: the readings of whole texts.
-/

namespace Curly

open Cursor

/-- The trees have the same form, and both are the same name or neither is one. -/
structure Tree.Twin (T T' : Tree) : Prop where
  form : SameForm T T'
  bareName : T.bareName? = T'.bareName?

/-- What is left to read on either side: tokens that match, each sequence legible and shorter than the
number of repetitions allowed there. -/
structure Abreast (K : Token → Token → Prop) (S S' : Setting) (inRun : Bool) (ts ts' : List Token) :
    Prop where
  matched : Matches K inRun ts ts'
  legible : Legible ts
  legible' : Legible ts'
  rounds : ts.length < S.rounds
  rounds' : ts'.length < S'.rounds

/-- The results are related by `P`, and what is left to read matches. -/
def Both {α α' : Type} (P : α → α' → Prop) (K : Token → Token → Prop) (S S' : Setting) (a : α) (a' : α')
    (us us' : List Token) : Prop :=
  P a a' ∧ Abreast K S S' false us us'

/-- The results are related by `P`, what is left to read matches, and a token was taken on either
side. -/
def BothFurther {α α' : Type} (P : α → α' → Prop) (K : Token → Token → Prop) (S S' : Setting)
    (ts ts' : List Token) (a : α) (a' : α') (us us' : List Token) : Prop :=
  us.length < ts.length ∧ us'.length < ts'.length ∧ Both P K S S' a a' us us'

/-- The rules of both sides read alike. -/
structure Rules.Alongside (K : Token → Token → Prop) (S S' : Setting) (r r' : Rules) : Prop where
  statement : ∀ ts ts', Abreast K S S' false ts ts' →
    Cursor.Alongside K r.statement r'.statement ts ts' (Both Tree.Twin K S S')
  /-- A declaration takes at least the word in front of it. -/
  declaration : ∀ ts ts', Abreast K S S' false ts ts' →
    Cursor.Alongside K r.declaration r'.declaration ts ts' (BothFurther Tree.Twin K S S' ts ts')
  block : ∀ ts ts', Abreast K S S' false ts ts' →
    Cursor.Alongside K r.block r'.block ts ts' (Both Tree.Twin K S S')
  expression : ∀ p ts ts', Abreast K S S' false ts ts' →
    Cursor.Alongside K (r.expression p) (r'.expression p) ts ts' (Both Tree.Twin K S S')
  operand : ∀ ts ts', Abreast K S S' false ts ts' →
    Cursor.Alongside K r.operand r'.operand ts ts' (Both Tree.Twin K S S')
  primary : ∀ ts ts', Abreast K S S' false ts ts' →
    Cursor.Alongside K r.primary r'.primary ts ts' (Both Tree.Twin K S S')
  parenthesized : ∀ t t' ts ts', Abreast K S S' false (t :: ts) (t' :: ts') → t.kind = .leftParen →
    Cursor.Alongside K r.parenthesized r'.parenthesized (t :: ts) (t' :: ts')
      (Both Tree.Twin K S S')
  /-- A call takes at least the parenthesis in front of its arguments. -/
  call : ∀ ts ts' F F', Abreast K S S' false ts ts' → Tree.SameForm F F' →
    Cursor.Alongside K (r.call (some F)) (r'.call (some F')) ts ts'
      (BothFurther Tree.Twin K S S' ts ts')

theorem Rules.alongside_bottom (K : Token → Token → Prop) (S S' : Setting) :
    Rules.bottom.Alongside K S S' Rules.bottom := by
  have hother : ∀ s, ReadFault.tooDeep ≠ .syntactic s := by
    rintro _ ⟨⟩
  exact {
    statement := fun _ _ _ => .throw (.other hother)
    declaration := fun _ _ _ => .throw (.other hother)
    block := fun _ _ _ => .throw (.other hother)
    expression := fun _ _ _ _ => .throw (.other hother)
    operand := fun _ _ _ => .throw (.other hother)
    primary := fun _ _ _ => .throw (.other hother)
    parenthesized := fun _ _ _ _ _ _ => .throw (.other hother)
    call := fun _ _ _ _ _ _ => .throw (.other hother) }

namespace Abreast

variable {K : Token → Token → Prop} {S S' : Setting} {inRun : Bool} {t t' : Token}
  {ts ts' : List Token}

theorem cons (h : Abreast K S S' false (t :: ts) (t' :: ts')) :
    Abreast K S S' (t.kind == .endOfLine) ts ts' where
  matched := h.matched.cons.2
  legible := h.legible.tail
  legible' := h.legible'.tail
  rounds := Nat.lt_of_succ_lt h.rounds
  rounds' := Nat.lt_of_succ_lt h.rounds'

/-- The rest after a token other than an end of line. -/
theorem tail (h : Abreast K S S' false (t :: ts) (t' :: ts')) (ht : t.kind ≠ .endOfLine) :
    Abreast K S S' false ts ts' := by
  have := h.cons
  rwa [beq_eq_false_iff_ne.2 ht] at this

end Abreast

theorem Matches.skip {K : Token → Token → Prop} {inRun : Bool} {ts ts' : List Token}
    (h : Matches K inRun ts ts') :
    ∃ ends ends' us us', EndsOfLine ends ∧ EndsOfLine ends' ∧ ts = ends ++ us ∧ ts' = ends' ++ us' ∧
      Matches K false us us' ∧ (∀ t ∈ us.head?, t.kind ≠ .endOfLine) ∧
        ∀ t ∈ us'.head?, t.kind ≠ .endOfLine := by
  have cons : ∀ {t : Token} {ends : List Token}, t.kind = .endOfLine → EndsOfLine ends →
      EndsOfLine (t :: ends) := fun ht hends => List.forall_mem_cons.2 ⟨ht, hends⟩
  -- The induction is on how the tokens match. An end of line that one side has alone is skipped there.
  induction h with
  | nil => exact ⟨[], [], [], [], .nil, .nil, rfl, rfl, .nil, nofun, nofun⟩
  | @token _ t t' ts ts' ht hk h =>
    refine ⟨[], [], t :: ts, t' :: ts', .nil, .nil, rfl, rfl, .token ht hk h, ?_, ?_⟩
    · rintro _ ⟨⟩
      exact hk
    · rintro _ ⟨⟩
      exact ht.kind_ne hk rfl
  | @line t t' _ _ ht hk _ ih =>
    obtain ⟨ends, ends', us, us', hends, hends', rfl, rfl, hrest⟩ := ih
    exact ⟨t :: ends, t' :: ends', us, us', cons hk hends, cons (ht.kind_eq hk rfl) hends', rfl, rfl,
      hrest⟩
  | @left t _ _ hk _ ih =>
    obtain ⟨ends, ends', us, us', hends, hends', rfl, rfl, hrest⟩ := ih
    exact ⟨t :: ends, ends', us, us', cons hk hends, hends', rfl, rfl, hrest⟩
  | @right t' _ _ hk _ ih =>
    obtain ⟨ends, ends', us, us', hends, hends', rfl, rfl, hrest⟩ := ih
    exact ⟨ends, t' :: ends', us, us', hends, cons hk hends', rfl, rfl, hrest⟩

namespace Rule

variable {K : Token → Token → Prop} {S S' : Setting} {below below' : Rules} {d : Nat} {inRun : Bool}
  {ts ts' : List Token}

/-- Skipping goes on to the first token that is no end of line, and looks at it. -/
theorem skipEndsOfLine_run {ends us : List Token} (hends : EndsOfLine ends)
    (hus : ∀ t ∈ us.head?, t.kind ≠ .endOfLine) (hrounds : ends.length < S.rounds) {c : Cursor}
    (hr : Regular c) (hc : c.rest = ends ++ us) :
    ∃ c', c'.rest = us ∧ c'.ending = c.ending ∧
      skipEndsOfLine S c = (Cursor.peek >>= fun _ => pure ⟨⟩) c' := by
  unfold skipEndsOfLine
  generalize S.rounds = rounds at hrounds
  induction ends generalizing rounds c with
  | nil =>
    obtain ⟨rounds, rfl⟩ : ∃ k, rounds = k + 1 := ⟨rounds - 1, by omega⟩
    refine ⟨c, hc, rfl, ?_⟩
    rw [Cursor.repeatUpTo]
    -- The last round looks at what comes next and takes nothing.
    cases us with
    | nil =>
      obtain ⟨e, d, _, hpeek, _⟩ := peek_nil hr rfl hc hc
      unfold nextIs
      rw [bind_run, bind_run, bind_run, bind_run, hpeek]
    | cons t us =>
      have ht : (t.kind == .endOfLine) = false := beq_eq_false_iff_ne.2 (hus t rfl)
      rw [bind_of_ok (peek_looked hc), bind_run, bind_of_ok (nextIs_looked hc _), ht]
      rfl
  | cons t ends ih =>
    obtain ⟨rounds, rfl⟩ : ∃ k, rounds = k + 1 := ⟨rounds - 1, by omega⟩
    have ht : t.kind = .endOfLine := hends t (List.mem_cons_self ..)
    have hlooked := (rest_looked t c).trans hc
    have hrest : ((c.looked t).looked t).taken.rest = ends ++ us :=
      rest_taken ((rest_looked t _).trans hlooked)
    have hending : ((c.looked t).looked t).taken.ending = c.ending := by
      rw [ending_taken, ending_looked, ending_looked]
    obtain ⟨c', hc', hending', hrun⟩ := ih (fun u hu => hends u (List.mem_cons_of_mem _ hu))
      (fun u => hending ▸ hr u) hrest rounds (Nat.lt_of_succ_lt_succ hrounds)
    refine ⟨c', hc', hending'.trans hending, Eq.trans ?_ hrun⟩
    have hstep : (do
        if ← nextIs .endOfLine then
          let _ ← advance
          return .inl ⟨⟩
        else return .inr ⟨⟩ : ReadM (PUnit ⊕ PUnit)) c =
          .ok (.inl ⟨⟩) ((c.looked t).looked t).taken := by
      rw [bind_of_ok (nextIs_looked hc _), ht]
      exact bind_of_ok (advance_looked hlooked (by rw [ht]; decide))
    rw [Cursor.repeatUpTo, bind_of_ok hstep]

theorem skipEndsOfLine_along (h : Abreast K S S' inRun ts ts') :
    Alongside K (skipEndsOfLine S) (skipEndsOfLine S') ts ts'
      fun _ _ us us' => Abreast K S S' false us us' := by
  rintro c c' hr hending rfl rfl
  obtain ⟨ends, ends', us, us', hends, hends', hc, hc', hmatched, hus, hus'⟩ := h.matched.skip
  have hrounds := h.rounds
  have hrounds' := h.rounds'
  have hlegible := h.legible
  have hlegible' := h.legible'
  rw [hc] at hrounds hlegible
  rw [hc'] at hrounds' hlegible'
  rw [List.length_append] at hrounds hrounds'
  have hr' : Regular c' := fun u => hending ▸ hr u
  obtain ⟨q, hq, hqe, hrun⟩ := skipEndsOfLine_run hends hus (S := S) (by omega) hr hc
  obtain ⟨q', hq', hqe', hrun'⟩ := skipEndsOfLine_run hends' hus' (S := S') (by omega) hr' hc'
  rw [hrun, hrun', hc, hc']
  have hleft : Abreast K S S' false us us' :=
    ⟨hmatched, hlegible.right ends, hlegible'.right ends', by omega, by omega⟩
  have hpeek : Alongside K (Cursor.peek >>= fun _ => pure ⟨⟩) (Cursor.peek >>= fun _ => pure ⟨⟩) us us'
      fun (_ _ : PUnit) vs vs' => Abreast K S S' false vs vs' :=
    .peek_bind hmatched fun _ _ _ _ _ _ _ => .pure hleft
  refine (hpeek q q' (fun u => hqe ▸ hr u) ?_ hq hq').mono ?_ ?_ fun _ _ _ _ _ _ h => h
  · rw [hqe, hqe', hending]
  · rw [List.length_append]
    omega
  · rw [List.length_append]
    omega

/-- Skipping at an end of line takes at least this one on both sides. -/
theorem skipEndsOfLine_along_cons {t t' : Token} {rest rest' : List Token}
    (h : Abreast K S S' false (t :: rest) (t' :: rest')) (ht : t.kind = .endOfLine) :
    Alongside K (skipEndsOfLine S) (skipEndsOfLine S') (t :: rest) (t' :: rest') fun _ _ us us' =>
      us.length < (t :: rest).length ∧ us'.length < (t' :: rest').length ∧
        Abreast K S S' false us us' := by
  have ht' := h.matched.cons.1.kind_eq ht rfl
  refine ((skipEndsOfLine_along h).and_ensures (skipEndsOfLine_ensures_cons S ht)
    (skipEndsOfLine_ensures_cons S' ht')).mono ?_
  rintro _ _ us us' ⟨hleft, ⟨ends, hne, -, hts⟩, ⟨ends', hne', -, hts'⟩⟩
  have := List.length_pos_iff.2 hne
  have := List.length_pos_iff.2 hne'
  rw [hts, hts', List.length_append, List.length_append]
  exact ⟨by omega, by omega, hleft⟩

theorem initializer_along (hb : below.Alongside K S S' below') (h : Abreast K S S' false ts ts')
    (opener opener' name name' : Token) :
    Alongside K (initializer below opener name) (initializer below' opener' name') ts ts'
      (Both (fun r r' => Tree.SameForm r.2 r'.2) K S S') := by
  refine .peek_bind h.matched fun t t' us us' hts hts' ht => ?_
  have halias := ht.kind
  generalize hk : t.kind = k at halias ⊢
  generalize t'.kind = k' at halias ⊢
  -- Operators with two spellings fall under the last case of the rule on both sides.
  cases halias with
  | same =>
    split
    · subst hts
      subst hts'
      refine .advance_bind ht (by rw [hk]; decide) ?_
      refine (hb.expression 0 us us' (h.tail (by rw [hk]; decide))).bind fun V V' vs vs' hV => ?_
      exact .pure ⟨hV.1.form, hV.2⟩
    · exact .pure ⟨.literal trivial, h⟩
    · exact .pure ⟨.literal trivial, h⟩
    · exact .pure ⟨.literal trivial, h⟩
    · exact .failAt ht (.malformedDeclaration ht.related)
  | _ => exact .failAt ht (.malformedDeclaration ht.related)

theorem nameOf?_eq {t t' : Token} (ht : t.Paired K t') : nameOf? t = nameOf? t' := by
  unfold nameOf?
  rw [ht.payload]

theorem declaration_along (hb : below.Alongside K S S' below') (h : Abreast K S S' false ts ts') :
    Alongside K (declaration below) (declaration below') ts ts'
      (BothFurther Tree.Twin K S S' ts ts') := by
  refine .expect_bind_lt rfl (by decide) h.matched fun opener opener' us us' hts hts' _ hk => ?_
  subst hts
  subst hts'
  have hus := h.tail (by rw [hk]; decide)
  refine .expect_bind rfl (by decide) hus.matched fun name name' vs vs' hvs hvs' hname hk' => ?_
  subst hvs
  subst hvs'
  refine (initializer_along hb (hus.tail (by rw [hk']; decide)) opener opener' name name').bind ?_
  rintro ⟨span, V⟩ ⟨span', V'⟩ ws ws' ⟨hV, hws⟩
  refine (Alongside.note (Q := fun _ _ xs xs' => xs = ws ∧ xs' = ws') ⟨rfl, rfl⟩).bind ?_
  rintro _ _ _ _ ⟨rfl, rfl⟩
  rw [nameOf?_eq hname]
  exact .pure ⟨⟨.declaration trivial hV, rfl⟩, hws⟩

theorem statement_along (hb : below.Alongside K S S' below') (h : Abreast K S S' false ts ts') :
    Alongside K (statement below) (statement below') ts ts' (Both Tree.Twin K S S') := by
  refine .peek_bind h.matched fun t t' us us' hts hts' ht => ?_
  have halias := ht.kind
  generalize t.kind = k at halias ⊢
  generalize t'.kind = k' at halias ⊢
  cases halias with
  | same =>
    split
    · exact (hb.declaration ts ts' h).mono fun _ _ _ _ hT => hT.2.2
    · exact .failAt ht .reservedFunction
    · exact hb.expression 0 ts ts' h
  | _ => exact hb.expression 0 ts ts' h

/-- The statements of two blocks are the same, and so are their tails. -/
def SameEntries (r r' : List Tree × Option Tree) : Prop :=
  List.Forall₂ Tree.SameForm r.1 r'.1 ∧ Tree.SimilarTails (fun _ _ => True) r.2 r'.2

theorem SameEntries.untailed {done done' : List Tree} (h : List.Forall₂ Tree.SameForm done done') :
    SameEntries (done.reverse, none) (done'.reverse, none) :=
  ⟨List.rel_reverse h, .none⟩

theorem SameEntries.tailed {done done' : List Tree} {T T' : Tree}
    (h : List.Forall₂ Tree.SameForm done done') (hT : Tree.SameForm T T') :
    SameEntries (done.reverse, some T) (done'.reverse, some T') :=
  ⟨List.rel_reverse h, .some hT⟩

/-- The results are related by `P`, and a token of the given kind comes next. -/
def BothUpTo {α α' : Type} (kind : TokenKind) (P : α → α' → Prop) (K : Token → Token → Prop)
    (S S' : Setting) (a : α) (a' : α') (us us' : List Token) : Prop :=
  Both P K S S' a a' us us' ∧ ∃ t rest, us = t :: rest ∧ t.kind = kind

/-- What a step of a block does where the block does not end. -/
def blockEntry (S : Setting) (below : Rules) (opener : Token) (done : List Tree) :
    ReadM (List Tree ⊕ List Tree × Option Tree) := do
  let s ← below.statement
  let t ← peek
  match t.kind with
  | .endOfLine =>
    skipEndsOfLine S
    return .inl (s :: done)
  | .rightBrace => return .inr (done.reverse, some s)
  | .endOfInput => failAt opener (.unclosed .leftBrace)
  | _ => failAt t (.expectedEndOfStatement t)

/-- An entry takes a token, if only the end of line behind it. -/
theorem blockEntry_along (hb : below.Alongside K S S' below') {opener opener' : Token}
    (ho : opener.Paired K opener') {done done' : List Tree}
    (h : Both (List.Forall₂ Tree.SameForm) K S S' done done' ts ts') :
    Alongside K (blockEntry S below opener done) (blockEntry S' below' opener' done') ts ts'
      (Onward (Both (List.Forall₂ Tree.SameForm) K S S') (BothUpTo .rightBrace SameEntries K S S')
        ts.length ts'.length) := by
  obtain ⟨hdone, h⟩ := h
  refine (hb.statement ts ts' h).bounded.bind ?_
  rintro T T' us us' ⟨hle, hle', hT, hus⟩
  refine .peek_bind hus.matched fun t t' vs vs' hvs hvs' ht => ?_
  have halias := ht.kind
  generalize hk : t.kind = k at halias ⊢
  generalize t'.kind = k' at halias ⊢
  cases halias with
  | same =>
    split
    · subst hvs
      subst hvs'
      refine (skipEndsOfLine_along_cons hus hk).bind ?_
      rintro _ _ ws ws' ⟨hlt, hlt', hws⟩
      exact .pure (.next ⟨.cons hT.form hdone, hws⟩ (by omega) (by omega))
    · exact .pure (.stop ⟨⟨.tailed hdone hT.form, hus⟩, t, vs, hvs, hk⟩)
    · exact .failAt ho (.unclosed _)
    · exact .failAt ht (.expectedEndOfStatement ht.related)
  | _ => exact .failAt ht (.expectedEndOfStatement ht.related)

theorem blockStep_along (hb : below.Alongside K S S' below') {opener opener' : Token}
    (ho : opener.Paired K opener') {done done' : List Tree}
    (h : Both (List.Forall₂ Tree.SameForm) K S S' done done' ts ts') :
    Alongside K (blockStep S below opener done) (blockStep S' below' opener' done') ts ts'
      (Onward (Both (List.Forall₂ Tree.SameForm) K S S') (BothUpTo .rightBrace SameEntries K S S')
        ts.length ts'.length) := by
  have hentry := blockEntry_along hb ho h
  refine .peek_bind h.2.matched fun t t' us us' hts hts' ht => ?_
  have halias := ht.kind
  generalize hk : t.kind = k at halias ⊢
  generalize t'.kind = k' at halias ⊢
  cases halias with
  | same =>
    split
    · exact .pure (.stop ⟨⟨.untailed h.1, h.2⟩, t, us, hts, hk⟩)
    · exact .failAt ho (.unclosed _)
    · exact hentry
  | _ => exact hentry

theorem block_along (hb : below.Alongside K S S' below') (h : Abreast K S S' false ts ts') :
    Alongside K (block S below) (block S' below') ts ts' (Both Tree.Twin K S S') := by
  refine .expect_bind rfl (by decide) h.matched fun opener opener' us us' hts hts' ho hk => ?_
  subst hts
  subst hts'
  refine (skipEndsOfLine_along (h.tail (by rw [hk]; decide))).bind fun _ _ vs vs' hvs => ?_
  have hloop : Alongside K (repeatUpTo (blockStep S below opener) S.rounds [])
      (repeatUpTo (blockStep S' below' opener') S'.rounds []) vs vs'
      (BothUpTo .rightBrace SameEntries K S S') :=
    .repeatUpTo (fun _ _ _ _ h => blockStep_along hb ho h) hvs.rounds hvs.rounds' ⟨.nil, hvs⟩
  refine hloop.bind ?_
  rintro ⟨es, tail⟩ ⟨es', tail'⟩ _ ws' ⟨⟨hentries, hws⟩, closer, ws, rfl, hc⟩
  obtain ⟨closer', ws', rfl⟩ := hws.matched.exists_cons
  refine .advance_bind hws.matched.cons.1 (by rw [hc]; decide) (.pure ⟨⟨?_, rfl⟩, ?_⟩)
  · exact .of_statements trivial hentries.1 hentries.2
  · exact hws.tail (by rw [hc]; decide)

/-- What stands in parentheses is no bare name. -/
theorem parenthesized_ensures_bareName {t : Token} {rest : List Token} (hs : below.Sound d)
    (hts : Legible (t :: rest)) (ht : t.kind = .leftParen) :
    Ensures (parenthesized below) (t :: rest) fun T _ => T.bareName? = none := by
  refine (parenthesized_ensures hs hts).mono ?_
  rintro T ts' ⟨-, us, hus, hT⟩
  cases hname : T.bareName? with
  | none => rfl
  | some name =>
    have hlegible : Legible us := Legible.left ts' (hus ▸ hts)
    obtain ⟨u, rfl, hu, -⟩ := hT.bareName hlegible hname
    cases hus
    exact absurd (ht.symm.trans hu.1) (by decide)

theorem parenthesized_along (hb : below.Alongside K S S' below') (hs : below.Sound d)
    (hs' : below'.Sound d) {t t' : Token} {rest rest' : List Token}
    (h : Abreast K S S' false (t :: rest) (t' :: rest')) (ht : t.kind = .leftParen) :
    Alongside K (parenthesized below) (parenthesized below') (t :: rest) (t' :: rest')
      (Both Tree.Twin K S S') := by
  have hforms : Alongside K (parenthesized below) (parenthesized below') (t :: rest) (t' :: rest')
      (Both Tree.SameForm K S S') := by
    refine .expect_bind rfl (by decide) h.matched fun opener opener' us us' hts hts' ho _ => ?_
    cases hts
    cases hts'
    refine (hb.expression 0 rest rest' (h.tail (by rw [ht]; decide))).bind ?_
    rintro T T' vs vs' ⟨hT, hvs⟩
    refine .peek_bind hvs.matched fun closer closer' ws ws' hws hws' hc => ?_
    have halias := hc.kind
    generalize hk : closer.kind = k at halias ⊢
    generalize closer'.kind = k' at halias ⊢
    cases halias with
    | same =>
      split
      · exact .failAt ho (.unclosed _)
      · subst hws
        subst hws'
        refine .advance_bind hc (by rw [hk]; decide) (.pure ⟨hT.form.withSpan trivial, ?_⟩)
        exact hvs.tail (by rw [hk]; decide)
      · exact .failAt hc (.expectedToken _ hc.related)
    | _ => exact .failAt hc (.expectedToken _ hc.related)
  have ht' := h.matched.cons.1.kind_eq ht rfl
  refine (hforms.and_ensures (parenthesized_ensures_bareName hs h.legible ht)
    (parenthesized_ensures_bareName hs' h.legible' ht')).mono ?_
  rintro T T' us us' ⟨⟨hform, hus⟩, hname, hname'⟩
  exact ⟨⟨hform, hname.trans hname'.symm⟩, hus⟩

theorem argumentStep_along (hb : below.Alongside K S S' below') {opener opener' : Token}
    (ho : opener.Paired K opener') {done done' : List Tree}
    (h : Both (List.Forall₂ Tree.SameForm) K S S' done done' ts ts') :
    Alongside K (argumentStep below opener done) (argumentStep below' opener' done') ts ts'
      (Onward (Both (List.Forall₂ Tree.SameForm) K S S')
        (BothUpTo .rightParen (List.Forall₂ Tree.SameForm) K S S') ts.length ts'.length) := by
  obtain ⟨hdone, h⟩ := h
  refine (hb.expression 0 ts ts' h).bounded.bind ?_
  rintro T T' us us' ⟨hle, hle', hT, hus⟩
  refine .peek_bind hus.matched fun t t' vs vs' hvs hvs' ht => ?_
  have halias := ht.kind
  generalize hk : t.kind = k at halias ⊢
  generalize t'.kind = k' at halias ⊢
  cases halias with
  | same =>
    split
    · subst hvs
      subst hvs'
      rw [List.length_cons] at hle hle'
      refine .advance_bind ht (by rw [hk]; decide) (.pure (.next ⟨.cons hT.form hdone, ?_⟩ hle hle'))
      exact hus.tail (by rw [hk]; decide)
    · exact .pure (.stop ⟨⟨List.rel_reverse (.cons hT.form hdone), hus⟩, t, vs, hvs, hk⟩)
    · exact .failAt ho (.unclosed _)
    · exact .failAt ht (.expectedEndOfArgument ht.related)
  | _ => exact .failAt ht (.expectedEndOfArgument ht.related)

theorem arguments_along (hb : below.Alongside K S S' below') {opener opener' : Token}
    (ho : opener.Paired K opener') (h : Abreast K S S' false ts ts') :
    Alongside K (arguments S below opener) (arguments S' below' opener') ts ts'
      (BothUpTo .rightParen (List.Forall₂ Tree.SameForm) K S S') := by
  refine .nextIs_bind rfl h.matched fun t t' us us' hts hts' ht => ?_
  split
  · next hk => exact .pure ⟨⟨.nil, h⟩, t, us, hts, beq_iff_eq.1 hk⟩
  · exact .repeatUpTo (fun _ _ _ _ h => argumentStep_along hb ho h) h.rounds h.rounds' ⟨.nil, h⟩

/-- Arguments take at least the parenthesis in front of them. -/
theorem argumentList_along (hb : below.Alongside K S S' below') (h : Abreast K S S' false ts ts') :
    Alongside K (argumentList S below) (argumentList S' below') ts ts' fun r r' us us' =>
      us.length < ts.length ∧ us'.length < ts'.length ∧
        Both (fun r r' => List.Forall₂ Tree.SameForm r.1 r'.1) K S S' r r' us us' := by
  refine .expect_bind_lt rfl (by decide) h.matched fun opener opener' us us' hts hts' ho hk => ?_
  subst hts
  subst hts'
  refine (arguments_along hb ho (h.tail (by rw [hk]; decide))).bind ?_
  rintro args args' _ vs' ⟨⟨hargs, hvs⟩, closer, vs, rfl, hc⟩
  obtain ⟨closer', vs', rfl⟩ := hvs.matched.exists_cons
  refine .advance_bind hvs.matched.cons.1 (by rw [hc]; decide) (.pure ⟨hargs, ?_⟩)
  exact hvs.tail (by rw [hc]; decide)

theorem call_along (hb : below.Alongside K S S' below') (h : Abreast K S S' false ts ts') {F F' : Tree}
    (hF : Tree.SameForm F F') :
    Alongside K (call S below (some F)) (call S' below' (some F')) ts ts'
      (BothFurther Tree.Twin K S S' ts ts') := by
  refine (argumentList_along hb h).bind ?_
  rintro ⟨args, closer⟩ ⟨args', closer'⟩ us us' ⟨hlt, hlt', hargs, hus⟩
  exact .pure ⟨hlt, hlt', ⟨.of_arguments trivial hF hargs, rfl⟩, hus⟩

theorem valueOf_eq {t t' : Token} (ht : t.Paired K t') : valueOf t = valueOf t' := by
  unfold valueOf
  rw [ht.payload]

/-- Identifiers that match say the same name, and either is as long as this name. -/
theorem referenceTo_twin {t t' : Token} (ht : t.Paired K t') (hk : t.kind = .identifier)
    (hfits : t.Fits) (hfits' : t'.Fits) : (referenceTo t).Twin (referenceTo t') := by
  have hk' := ht.kind_eq hk rfl
  simp only [Token.Fits, hk] at hfits
  obtain ⟨s, hs, hlength⟩ := hfits
  have hs' : t'.payload = .name s := ht.payload ▸ hs
  have hlength' := hfits'.nameFits s hk' hs'
  rw [referenceTo_of_name ⟨hk, hs⟩, referenceTo_of_name ⟨hk', hs'⟩]
  refine ⟨.reference trivial, ?_⟩
  rw [Tree.bareName?, Tree.bareName?, if_pos hlength, if_pos hlength']

theorem primary_along (hb : below.Alongside K S S' below') (h : Abreast K S S' false ts ts') :
    Alongside K (primary below) (primary below') ts ts' (Both Tree.Twin K S S') := by
  refine .peek_bind h.matched fun t t' us us' hts hts' ht => ?_
  subst hts
  subst hts'
  have one : ∀ {T T' : Tree}, t.kind ≠ .endOfInput → t.kind ≠ .endOfLine → T.Twin T' →
      Alongside K (advance >>= fun _ => pure T) (advance >>= fun _ => pure T') (t :: us) (t' :: us')
        (Both Tree.Twin K S S') := fun hinput hline hT => .advance_bind ht hinput (.pure ⟨hT, h.tail hline⟩)
  have body : ∀ {f f' : Tree → Tree}, t.kind ≠ .endOfInput → t.kind ≠ .endOfLine →
      (∀ {B B'}, Tree.SameForm B B' → (f B).Twin (f' B')) →
      Alongside K (advance >>= fun _ => below.block >>= fun B => pure (f B))
        (advance >>= fun _ => below'.block >>= fun B => pure (f' B)) (t :: us) (t' :: us')
        (Both Tree.Twin K S S') := by
    intro f f' hinput hline hf
    refine .advance_bind ht hinput ((hb.block us us' (h.tail hline)).bind ?_)
    rintro B B' vs vs' ⟨hB, hvs⟩
    exact .pure ⟨hf hB.form, hvs⟩
  have hfits := h.legible.fits t (List.mem_cons_self ..)
  have hfits' := h.legible'.fits t' (List.mem_cons_self ..)
  have hvalue := valueOf_eq ht
  have halias := ht.kind
  have hname := referenceTo_twin ht
  have hparens := hb.parenthesized t t' us us' h
  generalize hk : t.kind = k at halias one body hname hparens ⊢
  generalize t'.kind = k' at halias ⊢
  -- No primary begins with an operator that has two spellings.
  cases halias with
  | same =>
    split
    · rw [hvalue]
      exact one (by decide) (by decide) ⟨.literal trivial, rfl⟩
    · rw [hvalue]
      exact one (by decide) (by decide) ⟨.literal trivial, rfl⟩
    · exact one (by decide) (by decide) ⟨.literal trivial, rfl⟩
    · exact one (by decide) (by decide) ⟨.literal trivial, rfl⟩
    · exact one (by decide) (by decide) (hname rfl hfits hfits')
    · exact body (by decide) (by decide) fun hB => ⟨.doBlock trivial hB, rfl⟩
    · exact body (by decide) (by decide) fun hB => ⟨.loop trivial hB, rfl⟩
    · exact hparens rfl
    · exact .failAt ht .reservedFunction
    · exact .failAt ht .misplacedDeclaration
    · exact .failAt ht .missingExpression
    · exact .failAt ht (.expectedExpression ht.related)
  | _ => exact .failAt ht (.expectedExpression ht.related)

theorem callStep_along (hb : below.Alongside K S S' below') {F F' : Tree}
    (h : Both Tree.Twin K S S' F F' ts ts') :
    Alongside K (callStep below F) (callStep below' F') ts ts'
      (Onward (Both Tree.Twin K S S') (Both Tree.Twin K S S') ts.length ts'.length) := by
  refine .nextIs_bind rfl h.2.matched fun t t' us us' hts hts' ht => ?_
  split
  · refine (hb.call ts ts' F F' h.2 h.1.form).bind ?_
    rintro T T' vs vs' ⟨hlt, hlt', hT⟩
    exact .pure (.next hT hlt hlt')
  · exact .pure (.stop h)

theorem sign?_eq {k k' : TokenKind} (h : TokenKind.Alias k k') : Phrase.sign? k = Phrase.sign? k' := by
  cases h <;> rfl

theorem signed_along (hb : below.Alongside K S S' below') {t t' : Token} {rest rest' : List Token}
    (h : Abreast K S S' false (t :: rest) (t' :: rest')) {op : UnaryOperator}
    (ho : Phrase.sign? t.kind = some op) :
    Alongside K (signed below t op.name) (signed below' t' op.name) (t :: rest) (t' :: rest')
      (Both Tree.Twin K S S') := by
  have hline : t.kind ≠ .endOfLine := by
    intro hk
    rw [hk] at ho
    cases ho
  refine .advance_bind h.matched.cons.1 (Phrase.ne_endOfInput_of_sign ho)
    ((hb.operand rest rest' (h.tail hline)).bind ?_)
  rintro A A' us us' ⟨hA, hus⟩
  rw [UnaryOperator.ofName?_name]
  exact .pure ⟨⟨.unary trivial hA.form, rfl⟩, hus⟩

theorem operand_along (hS : S.table = .standard) (hS' : S'.table = .standard)
    (hb : below.Alongside K S S' below') (h : Abreast K S S' false ts ts') :
    Alongside K (operand S below) (operand S' below') ts ts' (Both Tree.Twin K S S') := by
  refine .peek_bind h.matched fun t t' us us' hts hts' ht => ?_
  rw [hS, hS', Phrase.unary?_standard, Phrase.unary?_standard, ← sign?_eq ht.kind]
  cases ho : Phrase.sign? t.kind with
  | some op =>
    subst hts
    subst hts'
    exact signed_along hb h ho
  | none =>
    refine (hb.primary ts ts' h).bind fun F F' vs vs' hF => ?_
    exact .repeatUpTo (fun _ _ _ _ h => callStep_along hb h) hF.2.rounds hF.2.rounds' hF

theorem target_of_some {A : Tree} {name : String} (h : A.bareName? = some name) (t : Token) :
    target t A = pure name := by
  unfold target
  split
  · cases h
  · rw [h]

theorem target_of_none {A : Tree} (h : A.bareName? = none) (hA : ∀ s, A ≠ .nameless s) (t : Token) :
    target t A = failAt t .invalidTarget := by
  unfold target
  split
  · exact absurd rfl (hA _)
  · rw [h]

/-- Whether there is a target to assign to is the same on both sides. -/
theorem target_along {t t' : Token} {A A' : Tree} (ht : t.Paired K t') (hA : A.Twin A') :
    Alongside K (target t A) (target t' A') ts ts' fun n n' us us' => n = n' ∧ us = ts ∧ us' = ts' := by
  obtain ⟨hform, hname⟩ := hA
  cases h : A.bareName? with
  | some name =>
    rw [target_of_some h, target_of_some (hname ▸ h)]
    exact .pure ⟨rfl, rfl, rfl⟩
  | none =>
    have h' : A'.bareName? = none := hname ▸ h
    cases hform with
    | nameless => exact .throw (.other (by rintro _ ⟨⟩))
    | _ =>
      rw [target_of_none h (by rintro _ ⟨⟩), target_of_none h' (by rintro _ ⟨⟩)]
      exact .failAt ht .invalidTarget

theorem assignment_along (hb : below.Alongside K S S' below') {t t' : Token} {rest rest' : List Token}
    (h : Abreast K S S' false (t :: rest) (t' :: rest')) (ht : t.kind = .equal) {A A' : Tree}
    (hA : A.Twin A') :
    Alongside K (assignment below t A) (assignment below' t' A') (t :: rest) (t' :: rest')
      (Both Tree.Twin K S S') := by
  have hpair := h.matched.cons.1
  refine (target_along hpair hA).bind ?_
  rintro name _ _ _ ⟨rfl, rfl, rfl⟩
  refine .advance_bind hpair (by rw [ht]; decide) ?_
  refine (hb.expression 0 rest rest' (h.tail (by rw [ht]; decide))).bind ?_
  rintro V V' us us' ⟨hV, hus⟩
  exact .pure ⟨⟨.assignment trivial hV.form, rfl⟩, hus⟩

theorem ofKind?_eq {k k' : TokenKind} (h : TokenKind.Alias k k') :
    BinaryOperator.ofKind? k = BinaryOperator.ofKind? k' := by
  cases h <;> rfl

theorem layer_eq {k k' : TokenKind} (h : TokenKind.Alias k k') :
    Layer.ofKind? k = Layer.ofKind? k' := by
  cases h <;> rfl

/-- An operator with its operand takes at least itself. -/
theorem infixed_along (hb : below.Alongside K S S' below') {t t' : Token} {rest rest' : List Token}
    (h : Abreast K S S' false (t :: rest) (t' :: rest')) {l : Layer} (hl : Layer.ofKind? t.kind = some l)
    {A A' : Tree} (hA : Tree.SameForm A A') (p : Nat) :
    Alongside K (infixed below t p A) (infixed below' t' p A') (t :: rest) (t' :: rest')
      fun T T' us us' => us.length < (t :: rest).length ∧ us'.length < (t' :: rest').length ∧
        Both Tree.Twin K S S' T T' us us' := by
  have hpair := h.matched.cons.1
  obtain ⟨o, -, ho⟩ := Layer.operator?_of_ofKind? hl
  have ho' : BinaryOperator.ofKind? t'.kind = some o := ofKind?_eq hpair.kind ▸ ho
  have hline : t.kind ≠ .endOfLine := by
    intro hk
    rw [hk] at hl
    cases hl
  refine .advance_bind hpair (Layer.ne_endOfInput_of_ofKind? hl) ?_
  refine (hb.expression p rest rest' (h.tail hline)).bounded.bind ?_
  rintro B B' us us' ⟨hle, hle', hB, hus⟩
  rw [ho, ho']
  exact .pure ⟨Nat.lt_succ_of_le hle, Nat.lt_succ_of_le hle', ⟨.binary trivial hA hB.form, rfl⟩, hus⟩

theorem climbStep_along (hS : S.table = .standard) (hS' : S'.table = .standard)
    (hb : below.Alongside K S S' below') {A A' : Tree} (h : Both Tree.Twin K S S' A A' ts ts')
    (power : Int) :
    Alongside K (climbStep S below power A) (climbStep S' below' power A') ts ts'
      (Onward (Both Tree.Twin K S S') (Both Tree.Twin K S S') ts.length ts'.length) := by
  refine .peek_bind h.2.matched fun t t' us us' hts hts' ht => ?_
  by_cases hk : t.kind = .equal
  · rw [if_pos hk, if_pos (ht.kind_eq hk rfl)]
    split
    · exact .pure (.stop h)
    · subst hts
      subst hts'
      exact (assignment_along hb h.2 hk h.1).bind fun T T' vs vs' hT => .pure (.stop hT)
  · rw [if_neg hk, if_neg (ht.kind_ne hk rfl), hS, hS', Layer.bindingPower?_standard,
      Layer.bindingPower?_standard, ← layer_eq ht.kind]
    cases hl : Layer.ofKind? t.kind with
    | none => exact .pure (.stop h)
    | some l =>
      rw [Option.map_some]
      dsimp only
      split
      · exact .pure (.stop h)
      · subst hts
        subst hts'
        refine (infixed_along hb h.2 hl h.1.form l.power).bind ?_
        rintro T T' vs vs' ⟨hlt, hlt', hT⟩
        exact .pure (.next hT hlt hlt')

theorem expression_along (hS : S.table = .standard) (hS' : S'.table = .standard)
    (hb : below.Alongside K S S' below') (h : Abreast K S S' false ts ts') (power : Int) :
    Alongside K (expression S below power) (expression S' below' power) ts ts'
      (Both Tree.Twin K S S') := by
  refine (hb.operand ts ts' h).bind fun A A' us us' hA => ?_
  exact .repeatUpTo (fun _ _ _ _ h => climbStep_along hS hS' hb h power) hA.2.rounds hA.2.rounds' hA

end Rule

/-- **The rules side by side**: with the same room, they read tokens that match alike. -/
theorem rulesAt_alongside {K : Token → Token → Prop} {S S' : Setting} (hS : S.table = .standard)
    (hS' : S'.table = .standard) (d : Nat) :
    (rulesAt S d).Alongside K S S' (rulesAt S' d) := by
  induction d with
  | zero => exact Rules.alongside_bottom K S S'
  | succ d ih =>
    have hs := rulesAt_sound hS (Nat.le_refl d)
    have hs' := rulesAt_sound hS' (Nat.le_refl d)
    exact {
      statement := fun _ _ => Rule.statement_along ih
      declaration := fun _ _ => Rule.declaration_along ih
      block := fun _ _ => Rule.block_along ih
      expression := fun p _ _ h => Rule.expression_along hS hS' ih h p
      operand := fun _ _ => Rule.operand_along hS hS' ih
      primary := fun _ _ => Rule.primary_along ih
      parenthesized := fun _ _ _ _ => Rule.parenthesized_along ih hs hs'
      call := fun _ _ _ _ h => Rule.call_along ih h }

namespace TextUnit

open Rule

variable {K : Token → Token → Prop} {S S' : Setting} {rules rules' : Rules} {ts ts' : List Token}

/-- What ends a statement of a whole text is taken, unless the text ends there. -/
theorem endOfStatement_along (h : Abreast K S S' false ts ts') :
    Alongside K endOfStatement endOfStatement ts ts' fun _ _ us us' =>
      (∃ inRun, Abreast K S S' inRun us us') ∧
        ((∀ t ∈ ts.head?, t.kind ≠ .endOfInput) → us.length < ts.length ∧ us'.length < ts'.length) := by
  refine .peek_bind h.matched fun t t' us us' hts hts' ht => ?_
  subst hts
  subst hts'
  have halias := ht.kind
  generalize hk : t.kind = k at halias ⊢
  generalize t'.kind = k' at halias ⊢
  cases halias with
  | same =>
    split
    · refine .advance_bind ht (by rw [hk]; decide) (.pure ⟨⟨_, h.cons⟩, fun _ => ?_⟩)
      exact ⟨Nat.lt_succ_self _, Nat.lt_succ_self _⟩
    · exact .pure ⟨⟨_, h⟩, fun hne => absurd hk (hne t rfl)⟩
    · exact .failAt ht (.expectedToken _ ht.related)
  | _ => exact .failAt ht (.expectedToken _ ht.related)

theorem programStep_along (hr : rules.Alongside K S S' rules') {done done' : List Tree}
    (h : Both (List.Forall₂ Tree.SameForm) K S S' done done' ts ts') :
    Alongside K (programStep S rules done) (programStep S' rules' done') ts ts'
      (Onward (Both (List.Forall₂ Tree.SameForm) K S S') (Both (List.Forall₂ Tree.SameForm) K S S')
        ts.length ts'.length) := by
  obtain ⟨hdone, h⟩ := h
  refine .peek_bind h.matched fun t t' us us' hts hts' ht => ?_
  have halias := ht.kind
  generalize t.kind = k at halias ⊢
  generalize t'.kind = k' at halias ⊢
  cases halias with
  | same =>
    split
    · exact .pure (.stop ⟨List.rel_reverse hdone, h⟩)
    · exact .failAt ht .reservedFunction
    · refine (hr.declaration ts ts' h).bind ?_
      rintro T T' vs vs' ⟨hlt, hlt', hT, hvs⟩
      refine (endOfStatement_along hvs).bounded.bind ?_
      rintro _ _ ws ws' ⟨hle, hle', ⟨inRun, hws⟩, -⟩
      refine (skipEndsOfLine_along hws).bounded.bind ?_
      rintro _ _ xs xs' ⟨hle₁, hle₁', hxs⟩
      exact .pure (.next ⟨.cons hT.form hdone, hxs⟩ (by omega) (by omega))
    · exact .failAt ht (.expectedDeclaration ht.related)
  | _ => exact .failAt ht (.expectedDeclaration ht.related)

theorem readProgram_along (hr : rules.Alongside K S S' rules') (h : Abreast K S S' false ts ts') :
    Alongside K (readProgram S rules) (readProgram S' rules') ts ts' fun T T' _ _ =>
      Tree.SameForm T T' := by
  refine (skipEndsOfLine_along h).bind fun _ _ us us' hus => ?_
  have hloop : Alongside K (repeatUpTo (programStep S rules) S.rounds [])
      (repeatUpTo (programStep S' rules') S'.rounds []) us us'
      (Both (List.Forall₂ Tree.SameForm) K S S') :=
    .repeatUpTo (fun _ _ _ _ h => programStep_along hr h) hus.rounds hus.rounds' ⟨.nil, hus⟩
  exact hloop.bind fun es es' _ _ hes => .pure (.of_statements trivial hes.1 .none)

theorem readSingle_along (hr : rules.Alongside K S S' rules') (h : Abreast K S S' false ts ts') :
    Alongside K (readSingle S rules) (readSingle S' rules') ts ts' fun T T' _ _ =>
      Tree.SameForm T T' := by
  refine (skipEndsOfLine_along h).bind fun _ _ us us' hus => ?_
  refine (hr.statement us us' hus).bind ?_
  rintro T T' vs vs' ⟨hT, hvs⟩
  refine (skipEndsOfLine_along hvs).bind fun _ _ ws ws' hws => ?_
  refine .peek_bind hws.matched fun t t' xs xs' _ _ ht => ?_
  by_cases hk : t.kind = .endOfInput
  · rw [if_pos hk, if_pos (ht.kind_eq hk rfl)]
    exact .pure hT.form
  · rw [if_neg hk, if_neg (ht.kind_ne hk rfl)]
    exact .failAt ht (.expectedToken _ ht.related)

theorem statementsStep_along (hr : rules.Alongside K S S' rules') {done done' : List Tree}
    (h : Both (List.Forall₂ Tree.SameForm) K S S' done done' ts ts') :
    Alongside K (statementsStep S rules done) (statementsStep S' rules' done') ts ts'
      (Onward (Both (List.Forall₂ Tree.SameForm) K S S') (Both SameEntries K S S')
        ts.length ts'.length) := by
  obtain ⟨hdone, h⟩ := h
  refine .nextIs_bind rfl h.matched fun t t' _ _ _ _ _ => ?_
  split
  · exact .pure (.stop ⟨.untailed hdone, h⟩)
  · refine (hr.statement ts ts' h).bounded.bind ?_
    rintro T T' us us' ⟨hle, hle', hT, hus⟩
    refine .nextIs_bind rfl hus.matched fun u u' vs vs' hvs hvs' _ => ?_
    split
    · exact .pure (.stop ⟨.tailed hdone hT.form, hus⟩)
    · next hu =>
      -- The text goes on, so that the end of the statement takes a token.
      have hne : ∀ t ∈ us.head?, t.kind ≠ .endOfInput := by
        subst hvs
        rintro _ ⟨⟩
        simpa using hu
      refine (endOfStatement_along hus).bind ?_
      rintro _ _ ws ws' ⟨⟨inRun, hws⟩, hlt⟩
      obtain ⟨hlt, hlt'⟩ := hlt hne
      refine (skipEndsOfLine_along hws).bounded.bind ?_
      rintro _ _ xs xs' ⟨hle₁, hle₁', hxs⟩
      exact .pure (.next ⟨.cons hT.form hdone, hxs⟩ (by omega) (by omega))

theorem readStatements_along (hr : rules.Alongside K S S' rules') (h : Abreast K S S' false ts ts') :
    Alongside K (readStatements S rules) (readStatements S' rules') ts ts' fun T T' _ _ =>
      Tree.SameForm T T' := by
  refine (skipEndsOfLine_along h).bind fun _ _ us us' hus => ?_
  have hloop : Alongside K (repeatUpTo (statementsStep S rules) S.rounds [])
      (repeatUpTo (statementsStep S' rules') S'.rounds []) us us' (Both SameEntries K S S') :=
    .repeatUpTo (fun _ _ _ _ h => statementsStep_along hr h) hus.rounds hus.rounds' ⟨.nil, hus⟩
  refine hloop.bind ?_
  rintro ⟨es, tail⟩ ⟨es', tail'⟩ _ _ ⟨hes, -⟩
  exact .pure (.of_statements trivial hes.1 hes.2)

/-- **Whole texts side by side**: whole texts whose tokens match are read alike. -/
theorem read_alongside (hS : S.table = .standard) (hS' : S'.table = .standard) (d : Nat) (u : TextUnit)
    (h : Abreast K S S' false ts ts') :
    Alongside K (u.read S (rulesAt S d)) (u.read S' (rulesAt S' d)) ts ts' fun T T' _ _ =>
      Tree.SameForm T T' := by
  have hr := rulesAt_alongside (K := K) hS hS' d
  cases u with
  | program => exact readProgram_along hr h
  | single => exact readSingle_along hr h
  | statements => exact readStatements_along hr h

end TextUnit

end Curly
