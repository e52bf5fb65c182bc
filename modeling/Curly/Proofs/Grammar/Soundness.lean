import Curly.Proofs.Grammar.Powers
import Curly.Proofs.Grammar.Shape
import Curly.Proofs.Reading.Triple

/-!
# Every tree that is read is derived

The rules with room for `d` calls read only phrases that the grammar derives with nesting `d`. Every rule
is taken by itself; what it needs of the rules that it calls is `Rules.Sound`.

## Main statements

* `rulesAt_sound`: the rules are sound, whatever room they have.
* `TextUnit.read_ensures`: a whole text that is read is derived.
-/

namespace Curly

open Cursor

/-- The outcome of reading a phrase off `ts`: its tokens are a first part of `ts`, and what is left
satisfies `after`. -/
def Found (d : Nat) (x : Phrase) (ts : List Token) (after : List Token → Prop) (T : Tree)
    (ts' : List Token) : Prop :=
  after ts' ∧ ∃ us, ts = us ++ ts' ∧ x.Derives d us T

/-- The rules read only phrases that are derived with nesting `d`. Rules that are called only by others
may go deeper, as those have calls of their own. -/
structure Rules.Sound (d : Nat) (rules : Rules) : Prop where
  statement : ∀ ts, Legible ts →
    Ensures rules.statement ts (Found d .statement ts fun _ => True)
  declaration : ∀ ts, Legible ts →
    Ensures rules.declaration ts fun T ts' =>
      (∃ s n e, T = .declaration s n e) ∧ Found (d + 1) .statement ts (fun _ => True) T ts'
  block : ∀ ts, Legible ts → Ensures rules.block ts (Found d .block ts fun _ => True)
  /-- Expressions above a power end where they have to. -/
  expression : ∀ (p : Nat) ts, Legible ts →
    Ensures (rules.expression p) ts (Found d (.above p) ts (Stops p))
  /-- Operands end before anything but a call. -/
  operand : ∀ ts, Legible ts →
    Ensures rules.operand ts (Found (d + 1) .operand ts (JoinsAtMost 6))
  primary : ∀ ts, Legible ts →
    Ensures rules.primary ts (Found (d + 2) .primary ts fun _ => True)
  parenthesized : ∀ ts, Legible ts →
    Ensures rules.parenthesized ts (Found (d + 3) .primary ts fun _ => True)
  /-- A call goes on with what is called. -/
  call : ∀ ts vs F, Legible ts → Phrase.Derives (d + 2) .application vs F →
    Ensures (rules.call (some F)) ts fun T ts' =>
      ∃ us, ts = us ++ ts' ∧ Phrase.Derives (d + 2) .application (vs ++ us) T

theorem Rules.sound_bottom (d : Nat) : Rules.bottom.Sound d where
  statement := fun _ _ => Ensures.throw _
  declaration := fun _ _ => Ensures.throw _
  block := fun _ _ => Ensures.throw _
  expression := fun _ _ _ => Ensures.throw _
  operand := fun _ _ => Ensures.throw _
  primary := fun _ _ => Ensures.throw _
  parenthesized := fun _ _ => Ensures.throw _
  call := fun _ _ _ _ _ => Ensures.throw _

/-- Statements that end with ends of line are followed by further statements. -/
theorem Listing.append {ts us : List Token} {ps qs : List Part} {es fs : List Tree}
    {t : Option Tree} (h : Listing ts ps es none) (h' : Listing us qs fs t) :
    Listing (ts ++ us) (ps ++ qs) (es ++ fs) t := by
  generalize hnone : (none : Option Tree) = o at h
  induction h with
  | nil => exact h'
  | tail => cases hnone
  | statement hne hends _ ih =>
    rw [List.append_assoc, List.append_assoc]
    exact .statement hne hends (ih hnone)

/-- The parts in `ts`, a comma after each of them, are the first arguments of a longer list. -/
def Arguments.Opens (ts : List Token) (parts : List Part) : Prop :=
  ∀ us part more, Arguments us (part :: more) → Arguments (ts ++ us) (parts ++ part :: more)

theorem Arguments.Opens.snoc {ts us : List Token} {parts : List Part} {T : Tree} {comma : Token}
    (h : Opens ts parts) (hcomma : comma.kind = .comma) :
    Opens (ts ++ (us ++ [comma])) (parts ++ [(us, T)]) := by
  intro vs part more hvs
  have := h (us ++ comma :: vs) (us, T) (part :: more) (.cons hcomma hvs)
  simpa only [List.append_assoc, List.cons_append, List.nil_append] using this

theorem Token.IsName.nameOf? {t : Token} {s : String} (h : t.IsName s) :
    Rule.nameOf? t = some s := by
  simp only [Rule.nameOf?, h.2]

namespace Rule

variable {S : Setting} {below : Rules} {d : Nat} {ts : List Token}

/-- Skipping takes ends of line, and all of them. -/
theorem skipEndsOfLine_ensures (S : Setting) (ts : List Token) :
    Ensures (skipEndsOfLine S) ts fun _ ts' =>
      (∀ t ∈ ts'.head?, t.kind ≠ .endOfLine) ∧ ∃ ends, EndsOfLine ends ∧ ts = ends ++ ts' := by
  refine Ensures.repeatUpTo (I := fun _ ts' => ∃ ends, EndsOfLine ends ∧ ts = ends ++ ts') ?_ _ _ _
    ⟨[], .nil, rfl⟩
  rintro _ ts' ⟨ends, hends, hts⟩
  refine Ensures.nextIs_bind fun t rest hts' => ?_
  subst hts'
  split
  · next ht =>
    have ht : t.kind = .endOfLine := by simpa using ht
    refine Ensures.advance_bind (by simp [ht]) (Ensures.pure ⟨ends ++ [t], ?_, ?_⟩)
    · intro u hu
      rcases List.mem_append.1 hu with hu | hu
      · exact hends u hu
      · rw [List.mem_singleton.1 hu, ht]
    · rw [hts, List.append_assoc, List.singleton_append]
  · next ht =>
    refine Ensures.pure ⟨?_, ends, hends, hts⟩
    rintro u hu
    cases hu
    simpa using ht

/-- A name with what may follow it completes a declaration. -/
theorem initializer_ensures (hb : below.Sound d) (hts : Legible ts) {opener name : Token} {s : String}
    (ho : opener.kind = .varWord) (hn : name.IsName s) :
    Ensures (initializer below opener name) ts fun r ts' =>
      ∃ us, ts = us ++ ts' ∧
        Phrase.Derives (d + 2) .statement (opener :: name :: us) (.declaration r.1 s r.2) := by
  refine Ensures.peek_bind fun t rest h => ?_
  subst h
  split
  · next ht =>
    refine Ensures.advance_bind (by simp [ht]) ?_
    refine (hb.expression 0 rest hts.tail).bind ?_
    rintro V ts' ⟨_, us, rfl, hV⟩
    exact Ensures.pure ⟨t :: us, rfl, .declaration ho hn ht hV⟩
  · exact Ensures.pure ⟨[], rfl, .bareDeclaration ho hn⟩
  · exact Ensures.pure ⟨[], rfl, .bareDeclaration ho hn⟩
  · exact Ensures.pure ⟨[], rfl, .bareDeclaration ho hn⟩
  · exact Ensures.failAt _ _

theorem declaration_ensures (hb : below.Sound d) (hts : Legible ts) :
    Ensures (declaration below) ts fun T ts' =>
      (∃ s n e, T = .declaration s n e) ∧ Found (d + 2) .statement ts (fun _ => True) T ts' := by
  refine Ensures.expect_bind (by decide) fun opener rest h ho => ?_
  subst h
  refine Ensures.expect_bind (by decide) fun name rest h hk => ?_
  subst h
  obtain ⟨s, hs, _⟩ : ∃ s, name.payload = .name s ∧ name.span.length = s.length := by
    have := hts.fits name (by simp)
    simpa only [Token.Fits, hk] using this
  have hn : name.IsName s := ⟨hk, hs⟩
  refine (initializer_ensures hb hts.tail.tail ho hn).bind ?_
  rintro ⟨span, V⟩ ts' ⟨us, rfl, hV⟩
  refine (Ensures.note (P := fun _ ts'' => ts'' = ts') rfl).bind ?_
  rintro _ _ rfl
  rw [hn.nameOf?]
  exact Ensures.pure ⟨⟨_, _, _, rfl⟩, trivial, opener :: name :: us, rfl, hV⟩

theorem statement_ensures (hb : below.Sound d) (hts : Legible ts) :
    Ensures (statement below) ts (Found (d + 1) .statement ts fun _ => True) := by
  refine Ensures.peek_bind fun t rest h => ?_
  split
  · exact (hb.declaration ts hts).mono fun T ts' h => h.2
  · exact Ensures.failAt _ _
  · refine (hb.expression 0 ts hts).mono ?_
    rintro T ts' ⟨_, us, rfl, hT⟩
    exact ⟨trivial, us, rfl, .evaluation hT⟩

/-- The entries that were read, latest first, each with ends of line after it. -/
def ReadBefore (P : Part → Prop) (ts : List Token) (done : List Tree) (ts' : List Token) : Prop :=
  ∃ us parts, ts = us ++ ts' ∧ Listing us parts done.reverse none ∧ ∀ p ∈ parts, P p

/-- All entries up to a token of the given kind. -/
def ReadAll (P : Part → Prop) (ts : List Token) (closer : TokenKind) (r : List Tree × Option Tree)
    (ts' : List Token) : Prop :=
  (∃ t rest, ts' = t :: rest ∧ t.kind = closer) ∧
    ∃ us parts, ts = us ++ ts' ∧ Listing us parts r.1 r.2 ∧ ∀ p ∈ parts, P p

namespace ReadBefore

variable {P : Part → Prop} {done es : List Tree} {T : Tree} {us ends ts' rest : List Token} {t : Token}

theorem nil (P : Part → Prop) (ts : List Token) : ReadBefore P ts [] ts :=
  ⟨[], [], rfl, .nil, by simp⟩

theorem legible (h : ReadBefore P ts done ts') (hts : Legible ts) : Legible ts' := by
  obtain ⟨us, _, rfl, _⟩ := h
  exact hts.right us

theorem append {tail : Option Tree} {parts : List Part} (h : ReadBefore P ts done (us ++ ts'))
    (hus : Listing us parts es tail) (hparts : ∀ p ∈ parts, P p) :
    ∃ vs qs, ts = vs ++ ts' ∧ Listing vs qs (done.reverse ++ es) tail ∧ ∀ p ∈ qs, P p := by
  obtain ⟨vs, qs, hts, hvs, hqs⟩ := h
  refine ⟨vs ++ us, qs ++ parts, by rw [hts, List.append_assoc], hvs.append hus, ?_⟩
  intro p hp
  rcases List.mem_append.1 hp with hp | hp
  · exact hqs p hp
  · exact hparts p hp

/-- One more statement with its ends of line. -/
theorem cons (h : ReadBefore P ts done (us ++ (ends ++ ts'))) (hT : P (us, T)) (hne : ends ≠ [])
    (hends : EndsOfLine ends) : ReadBefore P ts (T :: done) ts' := by
  have hus : Listing (us ++ (ends ++ [])) [(us, T)] [T] none := .statement hne hends .nil
  rw [List.append_nil] at hus
  rw [← List.append_assoc] at h
  obtain ⟨vs, qs, hts, hvs, hqs⟩ := h.append hus (by simpa using hT)
  exact ⟨vs, qs, hts, by rwa [List.reverse_cons], hqs⟩

/-- The tail, if a statement is followed by the end. -/
theorem all (h : ReadBefore P ts done (us ++ t :: rest)) (hT : P (us, T)) :
    ReadAll P ts t.kind (done.reverse, some T) (t :: rest) := by
  obtain ⟨vs, qs, hts, hvs, hqs⟩ := h.append .tail (by simpa using hT)
  rw [List.append_nil] at hvs
  exact ⟨⟨t, rest, rfl, rfl⟩, vs, qs, hts, hvs, hqs⟩

theorem untailed (h : ReadBefore P ts done (t :: rest)) :
    ReadAll P ts t.kind (done.reverse, none) (t :: rest) := by
  obtain ⟨us, parts, hts, hus, hparts⟩ := h
  exact ⟨⟨t, rest, rfl, rfl⟩, us, parts, hts, hus, hparts⟩

end ReadBefore

/-- The part is a statement with nesting `d`. -/
abbrev StatementPart (d : Nat) (p : Part) : Prop := Phrase.Derives d .statement p.1 p.2

/-- Skipping at an end of line takes at least this one. -/
theorem skipEndsOfLine_ensures_cons (S : Setting) {t : Token} {rest : List Token}
    (ht : t.kind = .endOfLine) :
    Ensures (skipEndsOfLine S) (t :: rest) fun _ ts' =>
      ∃ ends, ends ≠ [] ∧ EndsOfLine ends ∧ t :: rest = ends ++ ts' := by
  refine (skipEndsOfLine_ensures S _).mono ?_
  rintro _ ts' ⟨hhead, ends, hends, h⟩
  refine ⟨ends, ?_, hends, h⟩
  rintro rfl
  rw [List.nil_append] at h
  subst h
  exact hhead t rfl ht

theorem blockStep_ensures (hb : below.Sound d) (hts : Legible ts) (opener : Token) {done : List Tree}
    {ts' : List Token} (h : ReadBefore (StatementPart d) ts done ts') :
    Ensures (blockStep S below opener done) ts'
      (Either (ReadBefore (StatementPart d) ts) (ReadAll (StatementPart d) ts .rightBrace)) := by
  refine Ensures.peek_bind fun t rest hts' => ?_
  split
  · next ht =>
    subst hts'
    exact Ensures.pure (ht ▸ h.untailed)
  · exact Ensures.failAt _ _
  · refine (hb.statement ts' (h.legible hts)).bind ?_
    rintro T ts'' ⟨_, us, rfl, hT⟩
    refine Ensures.peek_bind fun u rest' hts'' => ?_
    subst hts''
    split
    · next hu =>
      refine (skipEndsOfLine_ensures_cons S hu).bind ?_
      rintro _ ts₁ ⟨ends, hne, hends, h'⟩
      rw [h'] at h
      exact Ensures.pure (h.cons hT hne hends)
    · next hu => exact Ensures.pure (hu ▸ h.all hT)
    · exact Ensures.failAt _ _
    · exact Ensures.failAt _ _

theorem block_ensures (hb : below.Sound d) (hts : Legible ts) :
    Ensures (block S below) ts (Found (d + 1) .block ts fun _ => True) := by
  refine Ensures.expect_bind (by decide) fun opener rest h ho => ?_
  subst h
  refine (skipEndsOfLine_ensures S rest).bind ?_
  rintro _ ts₁ ⟨_, ends, hends, rfl⟩
  have hts₁ := hts.tail.right ends
  have hloop : Ensures (repeatUpTo (blockStep S below opener) S.rounds []) ts₁
      (ReadAll (StatementPart d) ts₁ .rightBrace) :=
    Ensures.repeatUpTo (fun _ _ h => blockStep_ensures hb hts₁ opener h) _ _ _ (.nil _ ts₁)
  refine hloop.bind ?_
  rintro ⟨es, t⟩ ts₂ ⟨⟨closer, rest, rfl, hc⟩, us, parts, rfl, hus, hparts⟩
  refine Ensures.advance_bind (by simp [hc]) (Ensures.pure ⟨trivial, ?_⟩)
  refine ⟨opener :: (ends ++ (us ++ [closer])), ?_, .block ho hends hus hparts hc⟩
  simp only [List.append_assoc, List.cons_append, List.nil_append]

theorem parenthesized_ensures (hb : below.Sound d) (hts : Legible ts) :
    Ensures (parenthesized below) ts (Found (d + 4) .primary ts fun _ => True) := by
  refine Ensures.expect_bind (by decide) fun opener rest h ho => ?_
  subst h
  refine (hb.expression 0 rest hts.tail).bind ?_
  rintro T ts' ⟨_, us, rfl, hT⟩
  refine Ensures.peek_bind fun t rest' hts' => ?_
  subst hts'
  split
  · exact Ensures.failAt _ _
  · next ht =>
    refine Ensures.advance_bind (by simp [ht]) (Ensures.pure ⟨trivial, ?_⟩)
    refine ⟨opener :: (us ++ [t]), ?_, .parenthesized ho hT ht⟩
    simp only [List.cons_append, List.append_assoc, List.nil_append]
  · exact Ensures.failAt _ _

/-- The arguments that were read, latest first, each with a comma after it. -/
def ArgumentsBefore (d : Nat) (ts : List Token) (done : List Tree) (ts' : List Token) : Prop :=
  ∃ us parts, ts = us ++ ts' ∧ Arguments.Opens us parts ∧ parts.map Prod.snd = done.reverse ∧
    ∀ p ∈ parts, Phrase.Derives d .expression p.1 p.2

/-- All arguments, up to the closing parenthesis. -/
def ArgumentsAll (d : Nat) (ts : List Token) (args : List Tree) (ts' : List Token) : Prop :=
  (∃ t rest, ts' = t :: rest ∧ t.kind = .rightParen) ∧ ∃ us parts, ts = us ++ ts' ∧
    Arguments us parts ∧ parts.map Prod.snd = args ∧
    ∀ p ∈ parts, Phrase.Derives d .expression p.1 p.2

theorem argumentStep_ensures (hb : below.Sound d) (hts : Legible ts) (opener : Token)
    {done : List Tree} {ts' : List Token} (h : ArgumentsBefore d ts done ts') :
    Ensures (argumentStep below opener done) ts'
      (Either (ArgumentsBefore d ts) (ArgumentsAll d ts)) := by
  obtain ⟨vs, parts, rfl, hvs, hdone, hparts⟩ := h
  refine (hb.expression 0 ts' (hts.right vs)).bind ?_
  rintro T ts'' ⟨_, us, rfl, hT⟩
  have hall : ∀ p ∈ parts ++ [(us, T)], Phrase.Derives d .expression p.1 p.2 := by
    intro p hp
    rcases List.mem_append.1 hp with hp | hp
    · exact hparts p hp
    · rw [List.mem_singleton.1 hp]
      exact hT
  have hmap : (parts ++ [(us, T)]).map Prod.snd = (T :: done).reverse := by
    rw [List.map_append, hdone, List.reverse_cons]
    rfl
  refine Ensures.peek_bind fun t rest h => ?_
  subst h
  split
  · next ht =>
    refine Ensures.advance_bind (by simp [ht]) (Ensures.pure ?_)
    refine ⟨vs ++ (us ++ [t]), parts ++ [(us, T)], ?_, hvs.snoc ht, hmap, hall⟩
    simp only [List.append_assoc, List.cons_append, List.nil_append]
  · next ht =>
    refine Ensures.pure ⟨⟨t, rest, rfl, ht⟩, vs ++ us, parts ++ [(us, T)], ?_, ?_, hmap, hall⟩
    · rw [List.append_assoc]
    · exact hvs us (us, T) [] .last
  · exact Ensures.failAt _ _
  · exact Ensures.failAt _ _

theorem arguments_ensures (hb : below.Sound d) (hts : Legible ts) (opener : Token) :
    Ensures (arguments S below opener) ts (ArgumentsAll d ts) := by
  refine Ensures.nextIs_bind fun t rest h => ?_
  split
  · next ht =>
    refine Ensures.pure ⟨⟨t, rest, h, by simpa using ht⟩, [], [], rfl, .nil, rfl, by simp⟩
  · exact Ensures.repeatUpTo (I := ArgumentsBefore d ts)
      (fun _ _ h => argumentStep_ensures hb hts opener h) _ _ _
      ⟨[], [], rfl, fun _ _ _ h => h, rfl, by simp⟩

theorem call_ensures (hb : below.Sound d) (hts : Legible ts) {vs : List Token} {F : Tree}
    (hF : Phrase.Derives (d + 3) .application vs F) :
    Ensures (call S below (some F)) ts fun T ts' =>
      ∃ us, ts = us ++ ts' ∧ Phrase.Derives (d + 3) .application (vs ++ us) T := by
  refine Ensures.bind (P := fun r ts' => ∃ us, ts = us ++ ts' ∧
    Phrase.Derives (d + 3) .application (vs ++ us) (.call (F.span.union r.2.span) F r.1)) ?_ ?_
  · refine Ensures.expect_bind (by decide) fun opener rest h ho => ?_
    subst h
    refine (arguments_ensures hb hts.tail opener).bind ?_
    rintro args ts₁ ⟨⟨closer, rest, rfl, hc⟩, us, parts, rfl, hus, rfl, hparts⟩
    refine Ensures.advance_bind (by simp [hc]) (Ensures.pure ?_)
    refine ⟨opener :: (us ++ [closer]), ?_, .call hF ho hus hparts hc⟩
    simp only [List.cons_append, List.append_assoc, List.nil_append]
  · rintro ⟨args, closer⟩ ts' ⟨us, rfl, h⟩
    exact Ensures.pure ⟨us, rfl, h⟩

theorem valueOf_of_fits {t : Token} (h : t.Fits) (hk : t.kind = .string ∨ t.kind = .number) :
    Phrase.literal? t = some (valueOf t) := by
  rcases hk with hk | hk
  · simp only [Token.Fits, hk] at h
    obtain ⟨s, hs⟩ := h
    simp only [Phrase.literal?, valueOf, hk, hs]
  · simp only [Token.Fits, hk] at h
    obtain ⟨x, hx⟩ := h
    simp only [Phrase.literal?, valueOf, hk, hx]

theorem referenceTo_of_name {t : Token} {s : String} (h : t.IsName s) :
    referenceTo t = .reference t.span s := by
  simp only [referenceTo, h.nameOf?]

theorem primary_ensures (hb : below.Sound d) (hts : Legible ts) :
    Ensures (primary below) ts (Found (d + 3) .primary ts fun _ => True) := by
  refine Ensures.peek_bind fun t rest h => ?_
  subst h
  have hfits := hts.fits t (List.mem_cons_self ..)
  have one : ∀ {T}, t.kind ≠ .endOfInput → Phrase.Derives (d + 3) .primary [t] T →
      Ensures (advance >>= fun _ => pure T) (t :: rest)
        (Found (d + 3) .primary (t :: rest) fun _ => True) := fun ht hT =>
    Ensures.advance_bind ht (Ensures.pure ⟨trivial, [t], rfl, hT⟩)
  -- The kinds that begin a primary come first; with all others the reading fails.
  split
  · next ht => exact one (by simp [ht]) (.literal (valueOf_of_fits hfits (.inl ht)))
  · next ht => exact one (by simp [ht]) (.literal (valueOf_of_fits hfits (.inr ht)))
  · next ht => exact one (by simp [ht]) (.literal (by simp only [Phrase.literal?, ht]))
  · next ht => exact one (by simp [ht]) (.literal (by simp only [Phrase.literal?, ht]))
  · next ht =>
    simp only [Token.Fits, ht] at hfits
    obtain ⟨s, hs, _⟩ := hfits
    have hn : t.IsName s := ⟨ht, hs⟩
    rw [referenceTo_of_name hn]
    exact one (by simp [ht]) (.reference hn)
  · next ht =>
    refine Ensures.advance_bind (by simp [ht]) ((hb.block rest hts.tail).bind ?_)
    rintro B ts' ⟨_, us, rfl, hB⟩
    exact Ensures.pure ⟨trivial, t :: us, rfl, .doBlock ht hB⟩
  · next ht =>
    refine Ensures.advance_bind (by simp [ht]) ((hb.block rest hts.tail).bind ?_)
    rintro B ts' ⟨_, us, rfl, hB⟩
    exact Ensures.pure ⟨trivial, t :: us, rfl, .loop ht hB⟩
  · exact hb.parenthesized _ hts
  · exact Ensures.failAt _ _
  · exact Ensures.failAt _ _
  · exact Ensures.failAt _ _
  · exact Ensures.failAt _ _

theorem callStep_ensures (hb : below.Sound d) (hts : Legible ts) {F : Tree} {ts' : List Token}
    (h : Found (d + 2) .application ts (fun _ => True) F ts') :
    Ensures (callStep below F) ts' (Either (Found (d + 2) .application ts fun _ => True)
      (Found (d + 2) .application ts (JoinsAtMost 6))) := by
  obtain ⟨_, vs, rfl, hF⟩ := h
  refine Ensures.nextIs_bind fun t rest h => ?_
  split
  · refine (hb.call ts' vs F (hts.right vs) hF).bind ?_
    rintro T ts'' ⟨us, rfl, hT⟩
    exact Ensures.pure ⟨trivial, vs ++ us, by rw [List.append_assoc], hT⟩
  · next ht =>
    subst h
    exact Ensures.pure ⟨joinsAtMost_of_ne (by simpa using ht), vs, rfl, hF⟩

/-- The name of a sign is one of an operator. -/
theorem signed_ensures (hb : below.Sound d) {t : Token} {rest : List Token} {o : UnaryOperator}
    (hts : Legible (t :: rest)) (ho : Phrase.sign? t.kind = some o) :
    Ensures (signed below t o.name) (t :: rest)
      (Found (d + 2) .operand (t :: rest) (JoinsAtMost 6)) := by
  refine Ensures.advance_bind (Phrase.ne_endOfInput_of_sign ho) ((hb.operand rest hts.tail).bind ?_)
  rintro A ts' ⟨hafter, us, rfl, hA⟩
  rw [UnaryOperator.ofName?_name]
  exact Ensures.pure ⟨hafter, t :: us, rfl, .unary ho hA⟩

theorem operand_ensures (hS : S.table = .standard) (hb : below.Sound d) (hts : Legible ts) :
    Ensures (operand S below) ts (Found (d + 2) .operand ts (JoinsAtMost 6)) := by
  refine Ensures.peek_bind fun t rest h => ?_
  rw [hS, Phrase.unary?_standard]
  cases ho : Phrase.sign? t.kind with
  | some o =>
    subst h
    exact signed_ensures hb hts ho
  | none =>
    refine (hb.primary ts hts).bind ?_
    rintro F ts' ⟨_, us, rfl, hF⟩
    refine (Ensures.repeatUpTo (fun _ _ h => callStep_ensures hb hts h) S.rounds F ts'
      ⟨trivial, us, rfl, .uncalled hF⟩).mono ?_
    rintro T ts'' ⟨hafter, vs, hvs, hT⟩
    exact ⟨hafter, vs, hvs, .unsigned hT⟩

/-- What climbing has come to: operands joined by operators of a level, and what follows joins them by
no stronger operator. -/
def Climbed (d p : Nat) (ts : List Token) (T : Tree) (ts' : List Token) : Prop :=
  ∃ m, p < m ∧ Found d (.level m) ts (JoinsAtMost m) T ts'

/-- The left operand is no looser than the operator, whose layer it therefore belongs to. -/
theorem Climbed.left {p : Nat} {A : Tree} {t : Token} {rest : List Token} {l : Layer}
    (hA : Climbed d p ts A (t :: rest)) (hl : Layer.ofKind? t.kind = some l) :
    ∃ vs, ts = vs ++ t :: rest ∧ Phrase.Derives d (.layer l) vs A := by
  obtain ⟨m, _, hjoin, vs, hts, hA⟩ := hA
  obtain ⟨o, ho, _⟩ := Layer.operator?_of_ofKind? hl
  have hlm : l.power ≤ m := hjoin.2 _ (Layer.bindingPower?_of_operator? ho)
  rw [← Phrase.level_power]
  exact ⟨vs, hts, hA.level_of_le l.power_pos hlm⟩

theorem infixed_ensures (hb : below.Sound d) (hts : Legible ts) {p : Nat} {A : Tree} {t : Token}
    {rest : List Token} {l : Layer} (hA : Climbed (d + 1) p ts A (t :: rest))
    (hl : Layer.ofKind? t.kind = some l) (hp : p < l.power) :
    Ensures (infixed below t l.power A) (t :: rest) (Climbed (d + 1) p ts) := by
  obtain ⟨vs, rfl, hleft⟩ := hA.left hl
  obtain ⟨o, ho, hop⟩ := Layer.operator?_of_ofKind? hl
  have ht := Layer.ne_endOfInput_of_ofKind? hl
  refine Ensures.advance_bind ht ((hb.expression l.power rest (hts.right vs).tail).bind ?_)
  rintro B ts' ⟨hstop, us, rfl, hB⟩
  rw [Phrase.above_power] at hB
  rw [hop]
  refine Ensures.pure ⟨l.power, hp, hstop.joinsAtMost, vs ++ t :: us, ?_, ?_⟩
  · simp only [List.append_assoc, List.cons_append]
  · rw [Phrase.level_power]
    exact .binary hleft ho hB

theorem target_ensures {vs us : List Token} {t : Token} {x : Phrase} {A : Tree}
    (hA : x.Derives d vs A) (hvs : Legible vs) :
    Ensures (target t A) us fun name ts' =>
      ts' = us ∧ ∃ u, vs = [u] ∧ u.IsName name ∧ A = .reference u.span name := by
  unfold target
  split
  · exact Ensures.throw _
  · split
    · exact Ensures.failAt _ _
    · next name hname => exact Ensures.pure ⟨rfl, hA.bareName hvs hname⟩

theorem assignment_ensures (hb : below.Sound d) (hts : Legible ts) {p : Nat} {A : Tree} {t : Token}
    {rest : List Token} (hA : Climbed (d + 1) p ts A (t :: rest)) (ht : t.kind = .equal) :
    Ensures (assignment below t A) (t :: rest) (Found (d + 1) .expression ts (Stops 0)) := by
  obtain ⟨m, _, _, vs, rfl, hA⟩ := hA
  refine (target_ensures hA (hts.left _)).bind ?_
  rintro name _ ⟨rfl, u, rfl, hn, rfl⟩
  have hrest := (hts.right [u]).tail
  refine Ensures.advance_bind (by simp [ht]) ((hb.expression 0 rest hrest).bind ?_)
  rintro V ts' ⟨hstop, us, rfl, hV⟩
  exact Ensures.pure ⟨hstop, u :: t :: us, rfl, .assignment hn ht hV⟩

theorem climbStep_ensures (hS : S.table = .standard) (hb : below.Sound d) (hts : Legible ts) {p : Nat}
    {A : Tree} {ts' : List Token} (hA : Climbed (d + 1) p ts A ts') :
    Ensures (climbStep S below p A) ts'
      (Either (Climbed (d + 1) p ts) (Found (d + 1) (.above p) ts (Stops p))) := by
  have hstop : Stops p ts' → Found (d + 1) (.above p) ts (Stops p) A ts' := by
    intro hstop
    obtain ⟨m, hpm, _, vs, hvs, hA⟩ := hA
    exact ⟨hstop, vs, hvs, hA.above_of_level hpm⟩
  have hcall : ∀ t rest, ts' = t :: rest → t.kind ≠ .leftParen := by
    rintro t rest rfl
    obtain ⟨m, _, hjoin, _⟩ := hA
    exact hjoin.1
  refine Ensures.peek_bind fun t rest h => ?_
  subst h
  have hcall := hcall t rest rfl
  split
  · next ht =>
    -- An equals sign goes with the loosest expressions only; any other one ends before it.
    split
    · next hp =>
      refine Ensures.pure (hstop ⟨⟨hcall, fun q hq => ?_⟩, fun _ => by omega⟩)
      rw [ht] at hq
      exact absurd hq (by simp [Layer.bindingPower?_standard, Layer.ofKind?])
    · next hp =>
      obtain rfl : p = 0 := by omega
      refine (assignment_ensures hb hts hA ht).bind ?_
      rintro T ts'' hT
      exact Ensures.pure hT
  · next ht =>
    rw [hS, Layer.bindingPower?_standard]
    cases hl : Layer.ofKind? t.kind with
    | none =>
      refine Ensures.pure (hstop ⟨⟨hcall, fun q hq => ?_⟩, fun h => absurd h ht⟩)
      rw [Layer.bindingPower?_standard, hl] at hq
      exact absurd hq (by simp)
    | some l =>
      simp only [Option.map_some]
      -- The expression goes on if the operator binds more tightly than `p`.
      split
      · next hp =>
        refine Ensures.pure (hstop ⟨⟨hcall, fun q hq => ?_⟩, fun h => absurd h ht⟩)
        rw [Layer.bindingPower?_standard, hl, Option.map_some, Option.some.injEq] at hq
        omega
      · next hp =>
        refine (infixed_ensures hb hts hA hl (by omega)).bind ?_
        rintro T ts'' hT
        exact Ensures.pure hT

theorem expression_ensures (hS : S.table = .standard) (hb : below.Sound d) (hts : Legible ts)
    (p : Nat) : Ensures (expression S below p) ts (Found (d + 1) (.above p) ts (Stops p)) := by
  refine (hb.operand ts hts).bind ?_
  rintro A ts' ⟨hjoin, us, rfl, hA⟩
  -- An operand stands above the levels of all operators, of which there are six.
  have hlevel : Phrase.level (p + 7) = .operand := rfl
  refine Ensures.repeatUpTo (fun _ _ h => climbStep_ensures hS hb hts h) S.rounds A ts'
    ⟨p + 7, by omega, hjoin.mono (by omega), us, rfl, ?_⟩
  rwa [hlevel]

end Rule

/-- **Soundness of the rules**: what they read with room for `d` calls is derived with nesting `d`. -/
theorem rulesAt_sound {S : Setting} (hS : S.table = .standard) {d e : Nat} (h : d ≤ e) :
    (rulesAt S d).Sound e := by
  induction d generalizing e with
  | zero => exact Rules.sound_bottom e
  | succ d ih =>
    cases e with
    | zero => exact absurd h (Nat.not_succ_le_zero d)
    | succ e =>
      have hb := ih (Nat.le_of_succ_le_succ h)
      exact {
        statement := fun _ => Rule.statement_ensures hb
        declaration := fun _ => Rule.declaration_ensures hb
        block := fun _ => Rule.block_ensures hb
        expression := fun p _ hts => Rule.expression_ensures hS hb hts p
        operand := fun _ => Rule.operand_ensures hS hb
        primary := fun _ => Rule.primary_ensures hb
        parenthesized := fun _ => Rule.parenthesized_ensures hb
        call := fun _ _ _ hts => Rule.call_ensures hb hts }

namespace TextUnit

open Rule

variable {S : Setting} {rules : Rules} {d : Nat} {ts : List Token}

/-- A statement of a whole text is followed by an end of line, which is taken, or by the end. -/
theorem endOfStatement_ensures (ts : List Token) :
    Ensures endOfStatement ts fun _ ts' =>
      (∃ t, ts = t :: ts' ∧ t.kind = .endOfLine) ∨
        ts' = ts ∧ ∃ t rest, ts = t :: rest ∧ t.kind = .endOfInput := by
  refine Ensures.peek_bind fun t rest h => ?_
  subst h
  split
  · next ht => exact Ensures.advance_bind (by simp [ht]) (Ensures.pure (.inl ⟨t, rfl, ht⟩))
  · next ht => exact Ensures.pure (.inr ⟨rfl, t, rest, rfl, ht⟩)
  · exact Ensures.failAt _ _

/-- After a statement at the end of a line, all ends of line are taken. -/
theorem skipped_ensures (t : Token) (rest : List Token) (ht : t.kind = .endOfLine) :
    Ensures (skipEndsOfLine S) rest fun _ ts' =>
      ∃ ends, ends ≠ [] ∧ EndsOfLine ends ∧ t :: rest = ends ++ ts' := by
  refine (skipEndsOfLine_ensures S rest).mono ?_
  rintro _ ts' ⟨_, ends, hends, rfl⟩
  refine ⟨t :: ends, by simp, ?_, rfl⟩
  intro u hu
  rcases List.mem_cons.1 hu with rfl | hu
  · exact ht
  · exact hends u hu

theorem statementsStep_ensures (hr : rules.Sound d) (hts : Legible ts) {done : List Tree}
    {ts' : List Token} (h : ReadBefore (StatementPart d) ts done ts') :
    Ensures (statementsStep S rules done) ts'
      (Either (ReadBefore (StatementPart d) ts) (ReadAll (StatementPart d) ts .endOfInput)) := by
  refine Ensures.nextIs_bind fun t rest hts' => ?_
  split
  · next ht =>
    have ht : t.kind = .endOfInput := by simpa using ht
    subst hts'
    exact Ensures.pure (ht ▸ h.untailed)
  · refine (hr.statement ts' (h.legible hts)).bind ?_
    rintro T ts'' ⟨_, us, rfl, hT⟩
    refine Ensures.nextIs_bind fun u rest' hts'' => ?_
    split
    · next hu =>
      have hu : u.kind = .endOfInput := by simpa using hu
      subst hts''
      exact Ensures.pure (hu ▸ h.all hT)
    · next hu =>
      refine (endOfStatement_ensures ts'').bind ?_
      rintro _ ts₁ (⟨v, rfl, hv⟩ | ⟨_, v, rest, hv, hend⟩)
      · refine (skipped_ensures v ts₁ hv).bind ?_
        rintro _ ts₂ ⟨ends, hne, hends, h'⟩
        rw [h'] at h
        exact Ensures.pure (h.cons hT hne hends)
      -- That the text ends here was ruled out before the end of the statement was looked for.
      · rw [hts''] at hv
        cases hv
        exact absurd hend (by simpa using hu)

theorem readStatements_ensures (hr : rules.Sound d) (hts : Legible ts) :
    Ensures (readStatements S rules) ts fun T ts' =>
      ∃ us eof rest, ts = us ++ ts' ∧ ts' = eof :: rest ∧ Derives d .statements (us ++ [eof]) T := by
  refine (skipEndsOfLine_ensures S ts).bind ?_
  rintro _ ts₁ ⟨_, ends, hends, rfl⟩
  refine (Ensures.repeatUpTo (fun _ _ h => statementsStep_ensures hr (hts.right ends) h) S.rounds []
    ts₁ (.nil _ ts₁)).bind ?_
  rintro ⟨es, t⟩ ts₂ ⟨⟨eof, rest, rfl, heof⟩, us, parts, rfl, hus, hparts⟩
  refine Ensures.pure ⟨ends ++ us, eof, rest, by rw [List.append_assoc], rfl, ?_⟩
  rw [List.append_assoc]
  exact .statements hends hus hparts heof

/-- The part is a declaration with nesting `d`. -/
def DeclarationPart (d : Nat) (p : Part) : Prop :=
  StatementPart d p ∧ ∃ s n e, p.2 = .declaration s n e

/-- The declarations of a program that were read, latest first. -/
def ProgramBefore (d : Nat) (ts : List Token) (done : List Tree) (ts' : List Token) : Prop :=
  ReadBefore (DeclarationPart d) ts done ts' ∨
    ∃ r, done.reverse = r.1 ++ r.2.toList ∧ ReadAll (DeclarationPart d) ts .endOfInput r ts'

theorem programStep_ensures (hr : rules.Sound d) (hts : Legible ts) {done : List Tree}
    {ts' : List Token} (h : ProgramBefore (d + 1) ts done ts') :
    Ensures (programStep S rules done) ts' (Either (ProgramBefore (d + 1) ts) fun ds ts'' =>
      ∃ r, ds = r.1 ++ r.2.toList ∧ ReadAll (DeclarationPart (d + 1)) ts .endOfInput r ts'') := by
  refine Ensures.peek_bind fun t rest hts' => ?_
  split
  · next ht =>
    refine Ensures.pure ?_
    rcases h with h | h
    · subst hts'
      exact ⟨_, (List.append_nil _).symm, ht ▸ h.untailed⟩
    · exact h
  · exact Ensures.failAt _ _
  · next ht =>
    -- Something follows, so that the last declaration was not at the end of input.
    have h : ReadBefore (DeclarationPart (d + 1)) ts done ts' := by
      rcases h with h | ⟨_, _, ⟨u, _, hu, hend⟩, _⟩
      · exact h
      · rw [hts'] at hu
        cases hu
        rw [ht] at hend
        exact absurd hend (by decide)
    refine (hr.declaration ts' (h.legible hts)).bind ?_
    rintro T ts'' ⟨hdecl, _, us, rfl, hT⟩
    have hpart : DeclarationPart (d + 1) (us, T) := ⟨hT, hdecl⟩
    refine (endOfStatement_ensures ts'').bind ?_
    rintro _ ts₁ (⟨v, rfl, hv⟩ | ⟨rfl, v, rest, rfl, hend⟩)
    · refine (skipped_ensures v ts₁ hv).bind ?_
      rintro _ ts₂ ⟨ends, hne, hends, h'⟩
      rw [h'] at h
      exact Ensures.pure (.inl (h.cons hpart hne hends))
    · refine (skipEndsOfLine_ensures S _).bind ?_
      rintro _ ts₂ ⟨_, ends, hends, h'⟩
      -- The text ends here, so there is nothing to skip.
      obtain rfl : ends = [] := by
        cases ends with
        | nil => rfl
        | cons e ends =>
          cases h'
          rw [hends v (List.mem_cons_self ..)] at hend
          exact absurd hend (by decide)
      rw [List.nil_append] at h'
      subst h'
      exact Ensures.pure (.inr ⟨_, List.reverse_cons, hend ▸ h.all hpart⟩)
  · exact Ensures.failAt _ _

theorem readProgram_ensures (hr : rules.Sound d) (hts : Legible ts) :
    Ensures (readProgram S rules) ts fun T ts' =>
      ∃ us eof rest, ts = us ++ ts' ∧ ts' = eof :: rest ∧ Derives d .program (us ++ [eof]) T := by
  refine (skipEndsOfLine_ensures S ts).bind ?_
  rintro _ ts₁ ⟨_, ends, hends, rfl⟩
  refine (Ensures.repeatUpTo (fun _ _ h => programStep_ensures hr (hts.right ends) h) S.rounds []
    ts₁ (.inl (.nil _ ts₁))).bind ?_
  rintro _ ts₂ ⟨⟨es, t⟩, rfl, ⟨eof, rest, rfl, heof⟩, us, parts, rfl, hus, hparts⟩
  refine Ensures.pure ⟨ends ++ us, eof, rest, by rw [List.append_assoc], rfl, ?_⟩
  rw [List.append_assoc]
  exact .program hends hus (fun p hp => (hparts p hp).1) (fun p hp => (hparts p hp).2) heof

theorem readSingle_ensures (hr : rules.Sound d) (hts : Legible ts) :
    Ensures (readSingle S rules) ts fun T ts' =>
      ∃ us eof rest, ts = us ++ ts' ∧ ts' = eof :: rest ∧ Derives d .single (us ++ [eof]) T := by
  refine (skipEndsOfLine_ensures S ts).bind ?_
  rintro _ ts₁ ⟨_, before, hbefore, rfl⟩
  refine (hr.statement ts₁ (hts.right before)).bind ?_
  rintro T ts₂ ⟨_, us, rfl, hT⟩
  refine (skipEndsOfLine_ensures S ts₂).bind ?_
  rintro _ ts₃ ⟨_, after, hafter, rfl⟩
  refine Ensures.peek_bind fun eof rest h => ?_
  subst h
  split
  · next heof =>
    refine Ensures.pure ⟨before ++ (us ++ after), eof, rest, ?_, rfl, ?_⟩
    · simp only [List.append_assoc]
    · simp only [List.append_assoc]
      exact .single hbefore hT hafter heof
  · exact Ensures.failAt _ _

/-- **Soundness of reading**: a whole text that is read is derived, up to the end of input. -/
theorem read_ensures {S : Setting} (hS : S.table = .standard) (d : Nat) (u : TextUnit)
    (hts : Legible ts) :
    Ensures (u.read S (rulesAt S d)) ts fun T ts' =>
      ∃ us eof rest, ts = us ++ ts' ∧ ts' = eof :: rest ∧ Derives d u (us ++ [eof]) T := by
  cases u with
  | program => exact readProgram_ensures (rulesAt_sound hS (Nat.le_refl d)) hts
  | single => exact readSingle_ensures (rulesAt_sound hS (Nat.le_refl d)) hts
  | statements => exact readStatements_ensures (rulesAt_sound hS (Nat.le_refl d)) hts

end TextUnit

end Curly
