import Curly.Proofs.Grammar.Brackets
import Curly.Proofs.Grammar.Roles
import Curly.Proofs.Reading.Failure
import Curly.Proofs.Token.Writing

/-!
# Where readings get stuck

A rule that fails has taken tokens that could still become its phrase: a few more tokens complete them.
Every rule is taken by itself, as in the proof of soundness; what it needs of the rules that it calls is
`Rules.Blocked`.

## Main definitions

* `SyntaxError.Points`: the place of a fault among the tokens.
* `Stuck`: the tokens before a fault can be completed.
* `Unclosed`: the tokens of a phrase in brackets up to its last token.

## Main statements

* `rulesAt_blocked`: the rules only fail where they are stuck, whatever room they have.
* `TextUnit.read_blocked`: the same for whole texts.
-/

namespace Curly

open Cursor Token

/-- A fault after the tokens `us` is one of the next token, or one of the bracket that was opened last,
where the text ends. -/
inductive SyntaxError.Points (us : List Token) : SyntaxError → List Token → Prop where
  | token {cause t rest} (hcause : ∀ k, cause ≠ .unclosed k) : Points us ⟨cause, t.span⟩ (t :: rest)
  | unclosed {opener k eof rest} (hopen : ∀ stack, ∃ outer, openAfter stack us = opener :: outer)
      (hk : opener.kind = k) (heof : eof.kind = .endOfInput) :
      Points us ⟨.unclosed k, opener.span⟩ (eof :: rest)

theorem SyntaxError.Points.append {us rest : List Token} {e : SyntaxError} (h : e.Points us rest)
    (before : List Token) : e.Points (before ++ us) rest := by
  cases h with
  | token hcause => exact .token hcause
  | unclosed hopen hk heof =>
    refine .unclosed (fun stack => ?_) hk heof
    rw [openAfter_append]
    exact hopen _

/-- Reading the tokens `ts` came to `rest` and cannot go on; what stands before `rest` can be completed
to something that satisfies `D`. -/
def Stuck (D : List Token → Prop) (ts : List Token) (e : SyntaxError) (rest : List Token) : Prop :=
  ∃ us more, ts = us ++ rest ∧ e.Points us rest ∧ (∀ t ∈ more, t.Writable) ∧ D (us ++ more)

/-- The reading of the tokens `ts` fails where it is stuck, or because the text is nested too
deeply. -/
def Blocked (D : List Token → Prop) (ts : List Token) (e : ReadFault) (rest : List Token) : Prop :=
  e = .tooDeep ∨ ∃ error, e = .syntactic error ∧ Stuck D ts error rest

namespace Token

/-- A token of the given kind, as short as any. -/
def brief : TokenKind → Token
  | .identifier => ⟨.identifier, .origin, .name "x", ['x']⟩
  | .string => ⟨.string, .origin, .string "", [Quoted.double, Quoted.double]⟩
  | .number => ⟨.number, .origin, .number (Float.ofScientific 0 false 0), ['0']⟩
  | .endOfLine => ⟨.endOfLine, .origin, .none, [';']⟩
  | k => ⟨k, .origin, .none, k.text.toList⟩

@[simp] theorem kind_brief (k : TokenKind) : (brief k).kind = k := by
  cases k <;> rfl

theorem isName_brief : (brief .identifier).IsName "x" := ⟨rfl, rfl⟩

/-- Tokens of all kinds can be written down, the end of input apart. -/
theorem writable_brief {k : TokenKind} (hk : k ≠ .endOfInput) : (brief k).Writable := by
  cases k with
  | endOfInput => exact absurd rfl hk
  | number => exact ⟨_, _, rfl, rfl⟩
  | _ => exact ⟨_, _, rfl, by decide +kernel⟩

theorem writable_briefs {ks : List TokenKind} (hks : .endOfInput ∉ ks) :
    ∀ t ∈ ks.map brief, t.Writable := by
  intro t ht
  obtain ⟨k, hk, rfl⟩ := List.mem_map.1 ht
  exact writable_brief fun h => hks (h ▸ hk)

end Token

namespace Blocked

variable {D D' : List Token → Prop} {ts rest : List Token} {e : ReadFault}

theorem mono (h : Blocked D ts e rest) (hD : ∀ us, D us → D' us) : Blocked D' ts e rest := by
  rcases h with h | ⟨error, he, us, more, hts, hpoints, hmore, hus⟩
  · exact .inl h
  · exact .inr ⟨error, he, us, more, hts, hpoints, hmore, hD _ hus⟩

/-- A reading that is stuck in a part is stuck in the whole, which needs the tokens `after` as well. -/
theorem inside (h : Blocked D ts e rest) (before : List Token) {after : List Token}
    (hafter : ∀ t ∈ after, t.Writable) (hD : ∀ us, D us → D' (before ++ (us ++ after))) :
    Blocked D' (before ++ ts) e rest := by
  rcases h with h | ⟨error, he, us, more, rfl, hpoints, hmore, hus⟩
  · exact .inl h
  · refine .inr ⟨error, he, before ++ us, more ++ after, (List.append_assoc ..).symm,
      hpoints.append before, ?_, ?_⟩
    · intro t ht
      exact (List.mem_append.1 ht).elim (hmore t) (hafter t)
    · have := hD _ hus
      simpa only [List.append_assoc] using this

/-- The same without further tokens. -/
theorem behind (h : Blocked D ts e rest) (before : List Token)
    (hD : ∀ us, D us → D' (before ++ us)) : Blocked D' (before ++ ts) e rest :=
  h.inside before (List.forall_mem_nil _) fun us hus => by
    rw [List.append_nil]
    exact hD us hus

/-- The next token does not fit, and tokens of the kinds `ks` in its place complete what stands before
it. -/
theorem here {cause : SyntaxCause} {t : Token} {rest : List Token} (us : List Token)
    (ks : List TokenKind)
    (hcause : ∀ k, cause ≠ .unclosed k) (hks : .endOfInput ∉ ks) (hD : D (us ++ ks.map brief)) :
    Blocked D (us ++ t :: rest) (.syntactic ⟨cause, t.span⟩) (t :: rest) :=
  .inr ⟨_, rfl, us, ks.map brief, rfl, .token hcause, writable_briefs hks, hD⟩

/-- A reading that is stuck at its first token, if nowhere else, is stuck in whatever can stand there. -/
theorem filled (h : Blocked (fun us => us = [] ∨ D us) ts e rest) (ks : List TokenKind)
    (hks : .endOfInput ∉ ks) (hD : D (ks.map brief)) : Blocked D ts e rest := by
  rcases h with h | ⟨error, he, us, more, hts, hpoints, hmore, hnil | hus⟩
  · exact .inl h
  · obtain ⟨rfl, rfl⟩ := List.append_eq_nil_iff.1 hnil
    exact .inr ⟨error, he, [], ks.map brief, hts, hpoints, writable_briefs hks, hD⟩
  · exact .inr ⟨error, he, us, more, hts, hpoints, hmore, hus⟩

end Blocked

/-- The tokens `us` make a phrase in brackets, all but the last token, which is of the kind `closer`. The
innermost bracket that is still open is `opener`. -/
structure Unclosed (D : List Token → Prop) (opener : Token) (closer : TokenKind) (us : List Token) :
    Prop where
  closed : ∀ t : Token, t.kind = closer → D (us ++ [t])
  opened : ∀ stack, ∃ outer, openAfter stack us = opener :: outer

namespace Unclosed

variable {D : List Token → Prop} {opener t : Token} {k closer : TokenKind} {us rest : List Token}

theorem not_mem (hc : closer ≠ .endOfInput) : TokenKind.endOfInput ∉ [closer] := by
  rintro (_ | ⟨_, ⟨⟩⟩)
  exact hc rfl

/-- Where the text ends, the bracket is never closed. -/
theorem blocked (h : Unclosed D opener closer us) (hc : closer ≠ .endOfInput) (hk : opener.kind = k)
    (ht : t.kind = .endOfInput) :
    Blocked D (us ++ t :: rest) (.syntactic ⟨.unclosed k, opener.span⟩) (t :: rest) :=
  .inr ⟨_, rfl, us, [closer].map brief, rfl, .unclosed h.opened hk ht,
    writable_briefs (not_mem hc), h.closed _ (kind_brief _)⟩

/-- Any other token in the place of the last one does not fit. -/
theorem here (h : Unclosed D opener closer us) (hc : closer ≠ .endOfInput) {cause : SyntaxCause}
    (hcause : ∀ k, cause ≠ .unclosed k) :
    Blocked D (us ++ t :: rest) (.syntactic ⟨cause, t.span⟩) (t :: rest) :=
  .here us [closer] hcause (not_mem hc) (h.closed _ (kind_brief _))

end Unclosed

/-- Behind the tokens `us` of a phrase in brackets, a part that satisfies `P` is missing, and the last
token. -/
def Awaits (D P : List Token → Prop) (opener : Token) (closer : TokenKind) (us : List Token) : Prop :=
  ∀ vs, P vs → Unclosed D opener closer (us ++ vs)

namespace Awaits

variable {D P : List Token → Prop} {opener t : Token} {k closer : TokenKind}
  {us vs ts rest : List Token} {e : ReadFault}

/-- A reading that is stuck in the part is stuck in the phrase. -/
theorem inside (h : Awaits D P opener closer us) (hc : closer ≠ .endOfInput)
    (hblocked : Blocked P ts e rest) : Blocked D (us ++ ts) e rest := by
  refine hblocked.inside us (writable_briefs (Unclosed.not_mem hc)) fun vs hvs => ?_
  rw [← List.append_assoc]
  exact (h vs hvs).closed _ (kind_brief closer)

theorem blocked (h : Awaits D P opener closer us) (hc : closer ≠ .endOfInput) (hvs : P vs)
    (hk : opener.kind = k) (ht : t.kind = .endOfInput) :
    Blocked D (us ++ (vs ++ t :: rest)) (.syntactic ⟨.unclosed k, opener.span⟩) (t :: rest) := by
  rw [← List.append_assoc]
  exact (h vs hvs).blocked hc hk ht

theorem here (h : Awaits D P opener closer us) (hc : closer ≠ .endOfInput) (hvs : P vs)
    {cause : SyntaxCause} (hcause : ∀ k, cause ≠ .unclosed k) :
    Blocked D (us ++ (vs ++ t :: rest)) (.syntactic ⟨cause, t.span⟩) (t :: rest) := by
  rw [← List.append_assoc]
  exact (h vs hvs).here hc hcause

end Awaits

/-- The tokens form a phrase. -/
def Phrase.Forms (d : Nat) (x : Phrase) (us : List Token) : Prop := ∃ T, Derives d x us T

/-- The tokens form a declaration. -/
def Phrase.Declares (d : Nat) (us : List Token) : Prop :=
  ∃ s n V, Derives d .statement us (.declaration s n V)

/-- The tokens form a phrase, or there are none. -/
def Phrase.MayForm (d : Nat) (x : Phrase) (us : List Token) : Prop := us = [] ∨ x.Forms d us

/-- The rules only fail where they are stuck. -/
structure Rules.Blocked (d : Nat) (rules : Rules) : Prop where
  /-- Where no statement can begin, there may be no room for one either. -/
  statement : ∀ ts, Legible ts →
    Fails rules.statement ts (Curly.Blocked (Phrase.MayForm d .statement) ts)
  declaration : ∀ ts, Legible ts →
    Fails rules.declaration ts (Curly.Blocked (Phrase.Declares (d + 1)) ts)
  block : ∀ ts, Legible ts → Fails rules.block ts (Curly.Blocked (Phrase.Forms d .block) ts)
  expression : ∀ (p : Nat) ts, Legible ts →
    Fails (rules.expression p) ts (Curly.Blocked (Phrase.Forms d (.above p)) ts)
  operand : ∀ ts, Legible ts →
    Fails rules.operand ts (Curly.Blocked (Phrase.Forms (d + 1) .operand) ts)
  primary : ∀ ts, Legible ts →
    Fails rules.primary ts (Curly.Blocked (Phrase.Forms (d + 2) .primary) ts)
  parenthesized : ∀ ts, Legible ts →
    Fails rules.parenthesized ts (Curly.Blocked (Phrase.Forms (d + 3) .primary) ts)
  /-- A call goes on with what is called. -/
  call : ∀ opener ts fs F, Legible (opener :: ts) → opener.kind = .leftParen →
    Phrase.Derives (d + 2) .application fs F →
      Fails (rules.call (some F)) (opener :: ts)
        (Curly.Blocked (Phrase.Forms (d + 2) .application) (fs ++ opener :: ts))

theorem Rules.blocked_bottom (d : Nat) : Rules.bottom.Blocked d where
  statement := fun _ _ => Fails.throw (.inl rfl)
  declaration := fun _ _ => Fails.throw (.inl rfl)
  block := fun _ _ => Fails.throw (.inl rfl)
  expression := fun _ _ _ => Fails.throw (.inl rfl)
  operand := fun _ _ => Fails.throw (.inl rfl)
  primary := fun _ _ => Fails.throw (.inl rfl)
  parenthesized := fun _ _ => Fails.throw (.inl rfl)
  call := fun _ _ _ _ _ _ _ => Fails.throw (.inl rfl)

namespace Rule

variable {S : Setting} {below : Rules} {d : Nat} {ts : List Token} {D : List Token → Prop}

theorem skipEndsOfLine_fails (S : Setting) (ts : List Token) {F : ReadFault → List Token → Prop}
    (hdeep : ∀ rest, F .tooDeep rest) : Fails (skipEndsOfLine S) ts F := by
  refine Fails.repeatUpTo (I := fun _ _ => True) (P := fun _ _ => True) ?_ ?_ hdeep _ _ _ trivial
  · refine fun _ ts _ => Ensures.nextIs_bind fun t rest hts => ?_
    split
    · next ht =>
      subst hts
      have ht : t.kind = .endOfLine := by simpa using ht
      exact Ensures.advance_bind (by simp [ht]) (Ensures.pure trivial)
    · exact Ensures.pure trivial
  · refine fun _ ts _ => Fails.nextIs_bind fun t rest hts => ?_
    split
    · next ht =>
      subst hts
      have ht : t.kind = .endOfLine := by simpa using ht
      exact Fails.advance_bind (by simp [ht]) Fails.pure
    · exact Fails.pure

/-- What follows the word and the name of a declaration. -/
theorem initializer_fails (hb : below.Blocked d) (hts : Legible ts)
    {opener name : Token} {s : String} (ho : opener.kind = .varWord) (hn : name.IsName s) :
    Fails (initializer below opener name) ts
      (Blocked (Phrase.Declares (d + 2)) ([opener, name] ++ ts)) := by
  refine Fails.peek_bind fun t rest h => ?_
  subst h
  split
  · next ht =>
    refine Fails.advance_bind (by simp [ht]) (Fails.bind_of_ok ?_ fun _ _ => ⟨_, _, rfl⟩)
    refine (hb.expression 0 rest hts.tail).mono fun e rest' h => ?_
    refine h.behind [opener, name, t] ?_
    rintro us ⟨V, hV⟩
    exact ⟨_, _, _, .declaration ho hn ht hV⟩
  · exact Fails.pure
  · exact Fails.pure
  · exact Fails.pure
  · exact Fails.failAt (.here [opener, name] [] nofun (by simp) ⟨_, _, _, .bareDeclaration ho hn⟩)

theorem declaration_fails (hs : below.Sound d) (hb : below.Blocked d) (hts : Legible ts) :
    Fails (declaration below) ts (Blocked (Phrase.Declares (d + 2)) ts) := by
  refine Fails.expect_bind (by decide) ?_ fun opener rest h ho => ?_
  · rintro t rest rfl -
    exact .here [] [.varWord, .identifier] nofun (by simp)
      ⟨_, _, _, .bareDeclaration rfl isName_brief⟩
  subst h
  refine Fails.expect_bind (by decide) ?_ fun name rest h hk => ?_
  · rintro t rest rfl -
    exact .here [opener] [.identifier] nofun (by simp)
      ⟨_, _, _, .bareDeclaration ho isName_brief⟩
  subst h
  obtain ⟨s, hname, _⟩ : ∃ s, name.payload = .name s ∧ name.span.length = s.length := by
    have := hts.fits name (by simp)
    simpa only [Token.Fits, hk] using this
  have hn : name.IsName s := ⟨hk, hname⟩
  refine Fails.bind (initializer_ensures hs hts.tail.tail ho hn)
    (initializer_fails hb hts.tail.tail ho hn) ?_
  exact fun _ _ _ => Fails.note.bind_of_ok fun _ _ => ⟨_, _, rfl⟩

theorem statement_fails (hb : below.Blocked d) (hts : Legible ts) :
    Fails (statement below) ts (Blocked (Phrase.MayForm (d + 1) .statement) ts) := by
  refine Fails.peek_bind fun t rest h => ?_
  split
  · refine (hb.declaration ts hts).mono fun e rest' h => h.mono ?_
    rintro us ⟨_, _, _, h⟩
    exact .inr ⟨_, h⟩
  · subst h
    exact Fails.failAt (.here [] [] nofun (by simp) (.inl rfl))
  · refine (hb.expression 0 ts hts).mono fun e rest' h => h.mono ?_
    rintro us ⟨T, hT⟩
    exact .inr ⟨T, .evaluation hT⟩

/-- Behind an opening brace and statements, the block can end, and another statement can stand. -/
theorem ReadBefore.unclosed {opener : Token} {ends ts' : List Token} {done : List Tree}
    (h : ReadBefore (StatementPart d) ts done ts') (ho : opener.kind = .leftBrace)
    (hends : EndsOfLine ends) :
    ∃ us, opener :: (ends ++ ts) = us ++ ts' ∧
      Unclosed (Phrase.Forms (d + 1) .block) opener .rightBrace us ∧
      Awaits (Phrase.Forms (d + 1) .block) (Phrase.MayForm d .statement) opener .rightBrace us := by
  obtain ⟨us, qs, rfl, hus, hqs⟩ := h
  have unclosed : ∀ {vs parts es tail}, Listing vs parts es tail →
      (∀ p ∈ parts, StatementPart d p) →
        Unclosed (Phrase.Forms (d + 1) .block) opener .rightBrace (opener :: (ends ++ us) ++ vs) := by
    intro vs parts es tail hvs hparts
    have hlisting := hus.append hvs
    have hall : ∀ p ∈ qs ++ parts, StatementPart d p := fun p hp =>
      (List.mem_append.1 hp).elim (hqs p) (hparts p)
    have heq : opener :: (ends ++ us) ++ vs = opener :: (ends ++ (us ++ vs)) := by
      rw [List.cons_append, List.append_assoc]
    rw [heq]
    refine ⟨fun closer hc => ?_, fun stack => ⟨stack, ?_⟩⟩
    · rw [List.cons_append, List.append_assoc]
      exact ⟨_, .block ho hends hlisting hall hc⟩
    · exact Balanced.openAfter_opener (.inr ho)
        (hends.balanced.append (hlisting.balanced fun p hp => (hall p hp).balanced)) stack
  have hnil := unclosed .nil (by simp)
  refine ⟨opener :: (ends ++ us), ?_, ?_, ?_⟩
  · rw [List.cons_append, List.append_assoc]
  · rwa [List.append_nil] at hnil
  · rintro vs (rfl | ⟨T, hT⟩)
    · exact hnil
    · exact unclosed .tail (by simpa using hT)

theorem blockStep_fails (hs : below.Sound d) (hb : below.Blocked d) (hts : Legible ts)
    {opener : Token} {ends : List Token} (ho : opener.kind = .leftBrace) (hends : EndsOfLine ends)
    {done : List Tree} {ts' : List Token} (h : ReadBefore (StatementPart d) ts done ts') :
    Fails (blockStep S below opener done) ts'
      (Blocked (Phrase.Forms (d + 1) .block) (opener :: (ends ++ ts))) := by
  have hts' := h.legible hts
  obtain ⟨us, heq, hunclosed, hawaits⟩ := h.unclosed ho hends
  rw [heq]
  refine Fails.peek_bind fun t rest h => ?_
  split
  · exact Fails.pure
  · next ht =>
    subst h
    exact Fails.failAt (hunclosed.blocked (by decide) ho ht)
  · refine Fails.bind (hs.statement ts' hts')
      ((hb.statement ts' hts').mono fun _ _ => hawaits.inside (by decide)) ?_
    rintro T _ ⟨_, vs, rfl, hT⟩
    refine Fails.peek_bind fun u rest' h => ?_
    subst h
    split
    · exact (skipEndsOfLine_fails S _ fun _ => .inl rfl).bind_of_ok fun _ _ => ⟨_, _, rfl⟩
    · exact Fails.pure
    · next hu => exact Fails.failAt (hawaits.blocked (by decide) (.inr ⟨T, hT⟩) ho hu)
    · exact Fails.failAt (hawaits.here (by decide) (.inr ⟨T, hT⟩) nofun)

theorem block_fails (hs : below.Sound d) (hb : below.Blocked d) (hts : Legible ts) :
    Fails (block S below) ts (Blocked (Phrase.Forms (d + 1) .block) ts) := by
  refine Fails.expect_bind (by decide) ?_ fun opener rest h ho => ?_
  · rintro t rest rfl -
    exact .here [] [.leftBrace, .rightBrace] nofun (by decide)
      ⟨_, .block rfl .nil .nil (by simp) rfl⟩
  subst h
  refine Fails.bind (skipEndsOfLine_ensures S rest) (skipEndsOfLine_fails S _ fun _ => .inl rfl) ?_
  rintro _ ts₁ ⟨_, ends, hends, rfl⟩
  have hts₁ := hts.tail.right ends
  refine Fails.bind (Ensures.repeatUpTo (fun _ _ h => blockStep_ensures hs hts₁ opener h) _ _ _
    (.nil _ ts₁)) (Fails.repeatUpTo (fun _ _ h => blockStep_ensures hs hts₁ opener h)
    (fun _ _ h => blockStep_fails hs hb hts₁ ho hends h) (fun _ => .inl rfl) _ _ _ (.nil _ ts₁)) ?_
  rintro ⟨es, tail⟩ _ ⟨⟨closer, rest, rfl, hc⟩, -⟩
  exact Fails.advance_bind (by simp [hc]) Fails.pure

theorem parenthesized_fails (hs : below.Sound d) (hb : below.Blocked d) (hts : Legible ts) :
    Fails (parenthesized below) ts (Blocked (Phrase.Forms (d + 4) .primary) ts) := by
  refine Fails.expect_bind (by decide) ?_ fun opener rest h ho => ?_
  · rintro t rest rfl -
    exact .here [] [.trueWord] nofun (by decide) ⟨_, .literal rfl⟩
  subst h
  have hawaits : Awaits (Phrase.Forms (d + 4) .primary) (Phrase.Forms d .expression) opener
      .rightParen [opener] := by
    rintro vs ⟨T, hT⟩
    exact ⟨fun closer hc => ⟨_, .parenthesized ho hT hc⟩,
      fun stack => ⟨stack, hT.balanced.openAfter_opener (.inl ho) stack⟩⟩
  refine Fails.bind (hs.expression 0 rest hts.tail)
    ((hb.expression 0 rest hts.tail).mono fun _ _ => hawaits.inside (by decide)) ?_
  rintro T _ ⟨_, vs, rfl, hT⟩
  refine Fails.peek_bind fun t rest' h => ?_
  subst h
  split
  · next ht => exact Fails.failAt (hawaits.blocked (by decide) ⟨T, hT⟩ ho ht)
  · next ht => exact Fails.advance_bind (by simp [ht]) Fails.pure
  · exact Fails.failAt (hawaits.here (by decide) ⟨T, hT⟩ nofun)

/-- Behind an opening parenthesis and arguments with commas after them, another argument is missing. -/
theorem ArgumentsBefore.awaits {fs ts' : List Token} {F : Tree} {opener : Token} {done : List Tree}
    (h : ArgumentsBefore d ts done ts') (hF : Phrase.Derives (d + 3) .application fs F)
    (ho : opener.kind = .leftParen) :
    ∃ us, fs ++ opener :: ts = us ++ ts' ∧
      Awaits (Phrase.Forms (d + 3) .application) (Phrase.Forms d .expression) opener .rightParen us := by
  obtain ⟨us, parts, rfl, hus, -, hparts⟩ := h
  refine ⟨fs ++ opener :: us, by rw [List.append_assoc, List.cons_append], ?_⟩
  rintro vs ⟨T, hT⟩
  have hargs := hus vs (vs, T) [] .last
  have hall : ∀ p ∈ parts ++ [(vs, T)], Phrase.Derives d .expression p.1 p.2 := by
    intro p hp
    rcases List.mem_append.1 hp with hp | hp
    · exact hparts p hp
    · rw [List.mem_singleton.1 hp]
      exact hT
  have heq : fs ++ opener :: us ++ vs = fs ++ opener :: (us ++ vs) := by
    rw [List.append_assoc, List.cons_append]
  rw [heq]
  refine ⟨fun closer hc => ?_, fun stack => ⟨stack, ?_⟩⟩
  · rw [List.append_assoc, List.cons_append]
    exact ⟨_, .call hF ho hargs hall hc⟩
  · rw [openAfter_append, hF.balanced stack]
    exact (hargs.balanced fun p hp => (hall p hp).balanced).openAfter_opener (.inl ho) stack

theorem argumentStep_fails (hs : below.Sound d) (hb : below.Blocked d) (hts : Legible ts)
    {fs ts' : List Token} {F : Tree} {opener : Token} {done : List Tree}
    (h : ArgumentsBefore d ts done ts') (hF : Phrase.Derives (d + 3) .application fs F)
    (ho : opener.kind = .leftParen) :
    Fails (argumentStep below opener done) ts'
      (Blocked (Phrase.Forms (d + 3) .application) (fs ++ opener :: ts)) := by
  have hts' : Legible ts' := by
    obtain ⟨vs, _, rfl, _⟩ := h
    exact hts.right vs
  obtain ⟨us, heq, hawaits⟩ := h.awaits hF ho
  rw [heq]
  refine Fails.bind (hs.expression 0 ts' hts')
    ((hb.expression 0 ts' hts').mono fun _ _ => hawaits.inside (by decide)) ?_
  rintro T _ ⟨_, vs, rfl, hT⟩
  refine Fails.peek_bind fun t rest h => ?_
  subst h
  split
  · next ht => exact Fails.advance_bind (by simp [ht]) Fails.pure
  · exact Fails.pure
  · next ht => exact Fails.failAt (hawaits.blocked (by decide) ⟨T, hT⟩ ho ht)
  · exact Fails.failAt (hawaits.here (by decide) ⟨T, hT⟩ nofun)

theorem call_fails (hs : below.Sound d) (hb : below.Blocked d) {fs : List Token} {F : Tree}
    {opener : Token} (hts : Legible (opener :: ts)) (hF : Phrase.Derives (d + 3) .application fs F)
    (ho : opener.kind = .leftParen) :
    Fails (call S below (some F)) (opener :: ts)
      (Blocked (Phrase.Forms (d + 3) .application) (fs ++ opener :: ts)) := by
  have hts := hts.tail
  have harguments : Fails (arguments S below opener) ts
      (Blocked (Phrase.Forms (d + 3) .application) (fs ++ opener :: ts)) := by
    refine Fails.nextIs_bind fun t rest h => ?_
    split
    · exact Fails.pure
    · exact Fails.repeatUpTo (fun _ _ h => argumentStep_ensures hs hts opener h)
        (fun _ _ h => argumentStep_fails hs hb hts h hF ho) (fun _ => .inl rfl) _ _ _
        ⟨[], [], rfl, fun _ _ _ h => h, rfl, by simp⟩
  have hlist : Fails (argumentList S below) (opener :: ts)
      (Blocked (Phrase.Forms (d + 3) .application) (fs ++ opener :: ts)) := by
    refine Fails.expect_bind (by decide) (fun t rest h ht => ?_) fun t rest h _ => ?_
    · cases h
      exact absurd ho ht
    · cases h
      refine Fails.bind (arguments_ensures hs hts opener) harguments ?_
      rintro args _ ⟨⟨closer, rest, rfl, hc⟩, -⟩
      exact Fails.advance_bind (by simp [hc]) Fails.pure
  exact hlist.bind_of_ok fun _ _ => ⟨_, _, rfl⟩

theorem primary_fails (hb : below.Blocked d) (hts : Legible ts) :
    Fails (primary below) ts (Blocked (Phrase.Forms (d + 3) .primary) ts) := by
  refine Fails.peek_bind fun t rest h => ?_
  subst h
  -- Whatever cannot begin a primary, a literal can stand in its place.
  have expected : ∀ {cause}, (∀ k, cause ≠ .unclosed k) →
      Fails (failAt t cause : ReadM Tree) (t :: rest)
        (Blocked (Phrase.Forms (d + 3) .primary) (t :: rest)) := fun hcause =>
    Fails.failAt (.here [] [.string] hcause (by decide) ⟨_, .literal rfl⟩)
  have behind : ∀ {f : Tree → ReadM Tree}, t.kind ≠ .endOfInput →
      (∀ us B, Phrase.Derives d .block us B → Phrase.Forms (d + 3) .primary (t :: us)) →
      (∀ B c, ∃ T c', f B c = .ok T c') →
        Fails (advance >>= fun _ => below.block >>= f) (t :: rest)
          (Blocked (Phrase.Forms (d + 3) .primary) (t :: rest)) := by
    intro f ht hforms hf
    refine Fails.advance_bind ht (Fails.bind_of_ok ?_ hf)
    refine (hb.block rest hts.tail).mono fun e rest' h => ?_
    refine h.behind [t] ?_
    rintro us ⟨B, hB⟩
    exact hforms us B hB
  split
  case h_6 ht =>
    exact behind (by simp [ht]) (fun us B hB => ⟨_, .doBlock ht hB⟩) fun _ _ => ⟨_, _, rfl⟩
  case h_7 ht =>
    exact behind (by simp [ht]) (fun us B hB => ⟨_, .loop ht hB⟩) fun _ _ => ⟨_, _, rfl⟩
  case h_8 => exact hb.parenthesized _ hts
  case h_9 | h_10 | h_11 | h_12 => exact expected nofun
  all_goals
    next ht => exact Fails.advance_bind (by simp [ht]) Fails.pure

theorem callStep_fails (hb : below.Blocked d) (hts : Legible ts) {F : Tree} {ts' : List Token}
    (h : Found (d + 2) .application ts (fun _ => True) F ts') :
    Fails (callStep below F) ts' (Blocked (Phrase.Forms (d + 2) .application) ts) := by
  obtain ⟨_, fs, rfl, hF⟩ := h
  refine Fails.nextIs_bind fun t rest h => ?_
  split
  · next ht =>
    subst h
    exact (hb.call t rest fs F (hts.right fs) (by simpa using ht) hF).bind_of_ok
      fun _ _ => ⟨_, _, rfl⟩
  · exact Fails.pure

theorem signed_fails (hb : below.Blocked d) {t : Token} {rest : List Token} {o : UnaryOperator}
    (hts : Legible (t :: rest)) (ho : Phrase.sign? t.kind = some o) :
    Fails (signed below t o.name) (t :: rest)
      (Blocked (Phrase.Forms (d + 2) .operand) (t :: rest)) := by
  refine Fails.advance_bind (Phrase.ne_endOfInput_of_sign ho) (Fails.bind_of_ok ?_ fun A c => ?_)
  · refine (hb.operand rest hts.tail).mono fun e rest' h => ?_
    refine h.behind [t] ?_
    rintro us ⟨A, hA⟩
    exact ⟨_, .unary ho hA⟩
  · rw [UnaryOperator.ofName?_name]
    exact ⟨_, _, rfl⟩

theorem operand_fails (hS : S.table = .standard) (hs : below.Sound d) (hb : below.Blocked d)
    (hts : Legible ts) :
    Fails (operand S below) ts (Blocked (Phrase.Forms (d + 2) .operand) ts) := by
  refine Fails.peek_bind fun t rest h => ?_
  rw [hS, Phrase.unary?_standard]
  cases ho : Phrase.sign? t.kind with
  | some o =>
    subst h
    exact signed_fails hb hts ho
  | none =>
    refine Fails.bind (hs.primary ts hts) ((hb.primary ts hts).mono fun e rest' h => h.mono ?_) ?_
    · rintro us ⟨T, hT⟩
      exact ⟨T, .unsigned (.uncalled hT)⟩
    · rintro F ts' ⟨_, us, rfl, hF⟩
      refine (Fails.repeatUpTo (fun _ _ h => callStep_ensures hs hts h)
        (fun _ _ h => callStep_fails hb hts h) (fun _ => .inl rfl) S.rounds F ts'
        ⟨trivial, us, rfl, .uncalled hF⟩).mono fun e rest' h => h.mono ?_
      rintro us ⟨T, hT⟩
      exact ⟨T, .unsigned hT⟩

theorem infixed_fails (hb : below.Blocked d) (hts : Legible ts) {p : Nat}
    {A : Tree} {t : Token} {rest : List Token} {l : Layer} (hA : Climbed (d + 1) p ts A (t :: rest))
    (hl : Layer.ofKind? t.kind = some l) (hp : p < l.power) :
    Fails (infixed below t l.power A) (t :: rest)
      (Blocked (Phrase.Forms (d + 1) (.above p)) ts) := by
  obtain ⟨vs, rfl, hleft⟩ := hA.left hl
  obtain ⟨o, ho, hop⟩ := Layer.operator?_of_ofKind? hl
  have hrest := (hts.right vs).tail
  refine Fails.advance_bind (Layer.ne_endOfInput_of_ofKind? hl)
    (Fails.bind_of_ok ?_ fun B c => ?_)
  · refine (hb.expression l.power rest hrest).mono fun e rest' h => ?_
    rw [List.append_cons]
    refine h.behind _ ?_
    rintro us ⟨B, hB⟩
    rw [Phrase.above_power] at hB
    have := Phrase.Derives.binary hleft ho hB
    rw [← Phrase.level_power] at this
    rw [List.append_assoc]
    exact ⟨_, this.above_of_level hp⟩
  · rw [hop]
    exact ⟨_, _, rfl⟩

theorem target_fails {vs us : List Token} {t : Token} {x : Phrase} {A : Tree}
    (hA : x.Derives d vs A) : Fails (target t A) (t :: us) (Blocked (x.Forms d) (vs ++ t :: us)) := by
  unfold target
  split
  · exact absurd rfl hA.plays.meant.1
  · split
    · exact Fails.failAt (.here _ [] nofun (by decide) ⟨A, by simpa using hA⟩)
    · exact Fails.pure

theorem assignment_fails (hb : below.Blocked d) (hts : Legible ts) {p : Nat}
    {A : Tree} {t : Token} {rest : List Token} (hA : Climbed (d + 1) p ts A (t :: rest))
    (ht : t.kind = .equal) :
    Fails (assignment below t A) (t :: rest) (Blocked (Phrase.Forms (d + 1) .expression) ts) := by
  obtain ⟨m, hm, _, vs, rfl, hA⟩ := hA
  have hexpression : Phrase.Derives (d + 1) .expression vs A :=
    hA.above_of_level (p := 0) (Nat.lt_of_le_of_lt (Nat.zero_le p) hm)
  refine Fails.bind (target_ensures hA (hts.left _)) (target_fails hexpression) ?_
  rintro name _ ⟨rfl, u, rfl, hn, rfl⟩
  have hrest := (hts.right [u]).tail
  refine Fails.advance_bind (by simp [ht]) (Fails.bind_of_ok ?_ fun _ _ => ⟨_, _, rfl⟩)
  refine (hb.expression 0 rest hrest).mono fun e rest' h => ?_
  refine h.behind [u, t] ?_
  rintro us ⟨V, hV⟩
  exact ⟨_, .assignment hn ht hV⟩

theorem climbStep_fails (hS : S.table = .standard) (hb : below.Blocked d) (hts : Legible ts) {p : Nat}
    {A : Tree} {ts' : List Token} (hA : Climbed (d + 1) p ts A ts') :
    Fails (climbStep S below p A) ts' (Blocked (Phrase.Forms (d + 1) (.above p)) ts) := by
  refine Fails.peek_bind fun t rest h => ?_
  subst h
  split
  · next ht =>
    split
    · exact Fails.pure
    · next hp =>
      obtain rfl : p = 0 := by omega
      exact (assignment_fails hb hts hA ht).bind_of_ok fun _ _ => ⟨_, _, rfl⟩
  · rw [hS, Layer.bindingPower?_standard]
    cases hl : Layer.ofKind? t.kind with
    | none => exact Fails.pure
    | some l =>
      simp only [Option.map_some]
      split
      · exact Fails.pure
      · next hp =>
        exact (infixed_fails hb hts hA hl (by omega)).bind_of_ok fun _ _ => ⟨_, _, rfl⟩

theorem expression_fails (hS : S.table = .standard) (hs : below.Sound d) (hb : below.Blocked d)
    (hts : Legible ts) (p : Nat) :
    Fails (expression S below p) ts (Blocked (Phrase.Forms (d + 1) (.above p)) ts) := by
  have hlevel : Phrase.level (p + 7) = .operand := rfl
  refine Fails.bind (hs.operand ts hts)
    ((hb.operand ts hts).mono fun e rest h => h.mono ?_) ?_
  · rintro us ⟨T, hT⟩
    rw [← hlevel] at hT
    exact ⟨T, hT.above_of_level (by omega)⟩
  · rintro A ts' ⟨hjoin, us, rfl, hA⟩
    refine Fails.repeatUpTo (fun _ _ h => climbStep_ensures hS hs hts h)
      (fun _ _ h => climbStep_fails hS hb hts h) (fun _ => .inl rfl) S.rounds A ts'
      ⟨p + 7, by omega, hjoin.mono (by omega), us, rfl, ?_⟩
    rwa [hlevel]

end Rule

/-- **Failures of the rules**: with room for `d` calls they only fail where tokens are missing that
complete what was read with nesting `d`. -/
theorem rulesAt_blocked {S : Setting} (hS : S.table = .standard) (d : Nat) :
    (rulesAt S d).Blocked d := by
  induction d with
  | zero => exact Rules.blocked_bottom 0
  | succ d ih =>
    have hs := rulesAt_sound hS (Nat.le_refl d)
    exact {
      statement := fun _ => Rule.statement_fails ih
      declaration := fun _ => Rule.declaration_fails hs ih
      block := fun _ => Rule.block_fails hs ih
      expression := fun p _ hts => Rule.expression_fails hS hs ih hts p
      operand := fun _ => Rule.operand_fails hS hs ih
      primary := fun _ => Rule.primary_fails ih
      parenthesized := fun _ => Rule.parenthesized_fails hs ih
      call := fun _ _ _ _ hts ho hF => Rule.call_fails hs ih hts hF ho }

namespace TextUnit

open Rule

variable {S : Setting} {rules : Rules} {d : Nat} {ts : List Token}

/-- The tokens form a whole text in front of the end of input. -/
def Forms (d : Nat) (u : TextUnit) (us : List Token) : Prop :=
  ∀ eof : Token, eof.kind = .endOfInput → ∃ T, Derives d u (us ++ [eof]) T

theorem endOfStatement_fails {u : TextUnit} {us : List Token} (hus : u.Forms d us) :
    Fails endOfStatement ts (Blocked (u.Forms d) (us ++ ts)) := by
  refine Fails.peek_bind fun t rest h => ?_
  subst h
  split
  · next ht => exact Fails.advance_bind (by simp [ht]) Fails.pure
  · exact Fails.pure
  · exact Fails.failAt (.here _ [] nofun (by decide) (by rwa [List.map_nil, List.append_nil]))

/-- Parts that satisfy `P` make whole texts of the kind `u`. -/
def GatheredFrom (d : Nat) (u : TextUnit) (P : Part → Prop) : Prop :=
  ∀ ends us parts es tail, EndsOfLine ends → Listing us parts es tail → (∀ p ∈ parts, P p) →
    u.Forms d (ends ++ us)

theorem statements_gathered (d : Nat) : GatheredFrom d .statements (StatementPart d) := by
  intro ends us parts es tail hends hus hparts eof heof
  rw [List.append_assoc]
  exact ⟨_, .statements hends hus hparts heof⟩

theorem program_gathered (d : Nat) : GatheredFrom d .program (DeclarationPart (d + 1)) := by
  intro ends us parts es tail hends hus hparts eof heof
  rw [List.append_assoc]
  exact ⟨_, .program hends hus (fun p hp => (hparts p hp).1) (fun p hp => (hparts p hp).2) heof⟩

/-- What was read makes a whole text, and so does one more part. -/
theorem forms_of_readBefore {u : TextUnit} {P : Part → Prop} (hu : GatheredFrom d u P)
    {ends ts' : List Token} {done : List Tree} (h : ReadBefore P ts done ts')
    (hends : EndsOfLine ends) :
    ∃ us, ends ++ ts = us ++ ts' ∧ u.Forms d us ∧ ∀ vs T, P (vs, T) → u.Forms d (us ++ vs) := by
  obtain ⟨us, qs, rfl, hus, hqs⟩ := h
  refine ⟨ends ++ us, (List.append_assoc ..).symm, hu _ _ _ _ _ hends hus hqs, fun vs T hT => ?_⟩
  rw [List.append_assoc]
  refine hu _ _ (qs ++ [(vs, T)]) _ _ hends (hus.append .tail) fun p hp => ?_
  rcases List.mem_append.1 hp with hp | hp
  · exact hqs p hp
  · rw [List.mem_singleton.1 hp]
    exact hT

theorem statementsStep_fails (hs : rules.Sound d) (hb : rules.Blocked d) (hts : Legible ts)
    {ends ts' : List Token} {done : List Tree} (hends : EndsOfLine ends)
    (h : ReadBefore (StatementPart d) ts done ts') :
    Fails (statementsStep S rules done) ts' (Blocked (statements.Forms d) (ends ++ ts)) := by
  have hts' := h.legible hts
  obtain ⟨us, heq, hus, hnext⟩ := forms_of_readBefore (statements_gathered d) h hends
  rw [heq]
  refine Fails.nextIs_bind fun t rest _ => ?_
  split
  · exact Fails.pure
  · refine Fails.bind (hs.statement ts' hts')
      ((hb.statement ts' hts').mono fun e rest h => h.behind _ ?_) ?_
    · rintro vs (rfl | ⟨T, hT⟩)
      · rwa [List.append_nil]
      · exact hnext vs T hT
    · rintro T ts'' ⟨_, vs, rfl, hT⟩
      refine Fails.nextIs_bind fun u rest _ => ?_
      split
      · exact Fails.pure
      · rw [← List.append_assoc]
        refine Fails.bind (endOfStatement_ensures ts'') (endOfStatement_fails (hnext vs T hT)) ?_
        exact fun _ _ _ =>
          (skipEndsOfLine_fails S _ fun _ => .inl rfl).bind_of_ok fun _ _ => ⟨_, _, rfl⟩

theorem programStep_fails (hs : rules.Sound d) (hb : rules.Blocked d) (hts : Legible ts)
    {ends ts' : List Token} {done : List Tree} (hends : EndsOfLine ends)
    (h : ProgramBefore (d + 1) ts done ts') :
    Fails (programStep S rules done) ts' (Blocked (program.Forms d) (ends ++ ts)) := by
  refine Fails.peek_bind fun t rest hts' => ?_
  -- Before anything but the end of input, the declarations so far are a whole text.
  have before : t.kind ≠ .endOfInput → ReadBefore (DeclarationPart (d + 1)) ts done ts' := by
    intro ht
    rcases h with h | ⟨_, _, ⟨u, _, hu, hend⟩, _⟩
    · exact h
    · rw [hts'] at hu
      cases hu
      exact absurd hend ht
  have expected : ∀ {cause}, t.kind ≠ .endOfInput → (∀ k, cause ≠ .unclosed k) →
      Fails (failAt t cause : ReadM (List Tree ⊕ List Tree)) ts'
        (Blocked (program.Forms d) (ends ++ ts)) := by
    intro cause ht hcause
    obtain ⟨us, heq, hus, -⟩ := forms_of_readBefore (program_gathered d) (before ht) hends
    rw [heq, hts']
    exact Fails.failAt (.here _ [] hcause (by decide) (by rwa [List.map_nil, List.append_nil]))
  split
  · exact Fails.pure
  · next ht => exact expected (by simp [ht]) nofun
  · next ht =>
    have h := before (by simp [ht])
    have hts' := h.legible hts
    obtain ⟨us, heq, -, hnext⟩ := forms_of_readBefore (program_gathered d) h hends
    rw [heq]
    refine Fails.bind (hs.declaration ts' hts')
      ((hb.declaration ts' hts').mono fun e rest h => h.behind _ ?_) ?_
    · rintro vs ⟨s, n, V, hV⟩
      exact hnext vs _ ⟨hV, s, n, V, rfl⟩
    · rintro T ts'' ⟨hdecl, _, vs, rfl, hT⟩
      rw [← List.append_assoc]
      refine Fails.bind (endOfStatement_ensures ts'') (endOfStatement_fails (hnext vs T ⟨hT, hdecl⟩)) ?_
      exact fun _ _ _ =>
        (skipEndsOfLine_fails S _ fun _ => .inl rfl).bind_of_ok fun _ _ => ⟨_, _, rfl⟩
  · next h₁ _ _ => exact expected h₁ nofun

/-- **Failures of reading**: a whole text is only rejected where tokens are missing that complete what
was read, unless it is nested too deeply. -/
theorem read_blocked {S : Setting} (hS : S.table = .standard) {d : Nat} (hd : 2 ≤ d) (u : TextUnit)
    (hts : Legible ts) : Fails (u.read S (rulesAt S d)) ts (Blocked (u.Forms d) ts) := by
  have hs := rulesAt_sound hS (Nat.le_refl d)
  have hb := rulesAt_blocked hS d
  have skip : ∀ ts F, (∀ rest, F .tooDeep rest) → Fails (skipEndsOfLine S) ts F := fun ts F h =>
    skipEndsOfLine_fails S ts h
  cases u with
  | program =>
    refine Fails.bind (skipEndsOfLine_ensures S ts) (skip _ _ fun _ => .inl rfl) ?_
    rintro _ ts₁ ⟨_, ends, hends, rfl⟩
    have hts₁ := hts.right ends
    exact (Fails.repeatUpTo (fun _ _ h => programStep_ensures hs hts₁ h)
      (fun _ _ h => programStep_fails hs hb hts₁ hends h) (fun _ => .inl rfl) _ _ _
      (.inl (.nil _ ts₁))).bind_of_ok fun _ _ => ⟨_, _, rfl⟩
  | statements =>
    refine Fails.bind (skipEndsOfLine_ensures S ts) (skip _ _ fun _ => .inl rfl) ?_
    rintro _ ts₁ ⟨_, ends, hends, rfl⟩
    have hts₁ := hts.right ends
    exact (Fails.repeatUpTo (fun _ _ h => statementsStep_ensures hs hts₁ h)
      (fun _ _ h => statementsStep_fails hs hb hts₁ hends h) (fun _ => .inl rfl) _ _ _
      (.nil _ ts₁)).bind_of_ok fun _ _ => ⟨_, _, rfl⟩
  | single =>
    refine Fails.bind (skipEndsOfLine_ensures S ts) (skip _ _ fun _ => .inl rfl) ?_
    rintro _ ts₁ ⟨_, ends, hends, rfl⟩
    have hts₁ := hts.right ends
    have hbrief : Phrase.Forms d .statement ([.varWord, .identifier].map brief) := by
      obtain ⟨d, rfl⟩ := Nat.exists_eq_add_of_le' hd
      exact ⟨_, .bareDeclaration rfl isName_brief⟩
    refine Fails.bind (hs.statement ts₁ hts₁) ((hb.statement ts₁ hts₁).mono fun e rest h =>
      (h.filled _ (by simp) hbrief).behind _ ?_) ?_
    · rintro us ⟨T, hT⟩ eof heof
      rw [List.append_assoc]
      exact ⟨T, .single hends hT .nil heof⟩
    · rintro T ts₂ ⟨_, us, rfl, hT⟩
      refine Fails.bind (skipEndsOfLine_ensures S ts₂) (skip _ _ fun _ => .inl rfl) ?_
      rintro _ ts₃ ⟨_, after, hafter, rfl⟩
      refine Fails.peek_bind fun t rest h => ?_
      subst h
      split
      · exact Fails.pure
      · rw [← List.append_assoc, ← List.append_assoc]
        refine Fails.failAt (.here _ [] nofun (by decide) fun eof heof => ⟨T, ?_⟩)
        simp only [List.map_nil, List.append_nil, List.append_assoc]
        exact .single hends hT hafter heof

end TextUnit

end Curly
