import Curly.Proofs.Grammar.Powers
import Curly.Proofs.Grammar.Shape
import Curly.Proofs.Reading.Triple

/-!
# Every tree that is derived is read

The rules with room for `d` calls read every phrase that the grammar derives with nesting `d`, given
rounds for all tokens. The proof follows the derivation. A left-recursive phrase is read by a loop, so that
what is shown of it is how far the loop has come when the phrase is over.

## Main statements

* `Phrase.Derives.completes`: the rules read what is derived.
* `TextUnit.Derives.reads`: whole texts that are derived are read.
-/

namespace Curly

open Cursor

/-- The next token ends a statement. -/
def EndsStatement : List Token → Prop
  | [] => False
  | t :: _ => t.kind = .endOfLine ∨ t.kind = .endOfInput ∨ t.kind = .rightBrace

theorem EndsStatement.stops {p : Nat} {ts : List Token} (h : EndsStatement ts) : Stops p ts := by
  cases ts with
  | nil => exact h
  | cons t rest =>
    refine stops_of_isClosing ?_
    rcases h with h | h | h <;> rw [h] <;> rfl

theorem EndsOfLine.endsStatement {ends rest : List Token} (h : EndsOfLine ends) (hne : ends ≠ []) :
    EndsStatement (ends ++ rest) := by
  cases ends with
  | nil => exact absurd rfl hne
  | cons t ends => exact .inl (h t (List.mem_cons_self ..))

theorem Phrase.ne_of_begins {x : Phrase} {k k' : TokenKind} (h : x.begins k = true)
    (h' : x.begins k' = false) : k ≠ k' := by
  rintro rfl
  rw [h] at h'
  exact absurd h' (by decide)

/-- The tokens of a part are tokens of the listing. -/
theorem Listing.mem {ts : List Token} {parts : List Part} {es : List Tree} {t : Option Tree}
    (h : Listing ts parts es t) {p : Part} (hp : p ∈ parts) {u : Token} (hu : u ∈ p.1) : u ∈ ts := by
  induction h with
  | nil => exact absurd hp (by simp)
  | tail =>
    rw [List.mem_singleton.1 hp] at hu
    exact hu
  | statement _ _ _ ih =>
    rcases List.mem_cons.1 hp with rfl | hp
    · exact List.mem_append_left _ hu
    · exact List.mem_append_right _ (List.mem_append_right _ (ih hp))

/-- The tokens of an argument are tokens of the list. -/
theorem Arguments.mem {ts : List Token} {parts : List Part} (h : Arguments ts parts) {p : Part}
    (hp : p ∈ parts) {u : Token} (hu : u ∈ p.1) : u ∈ ts := by
  induction h with
  | nil => exact absurd hp (by simp)
  | last =>
    rw [List.mem_singleton.1 hp] at hu
    exact hu
  | cons _ _ ih =>
    rcases List.mem_cons.1 hp with rfl | hp
    · exact List.mem_append_left _ hu
    · exact List.mem_append_right _ (List.mem_cons_of_mem _ (ih hp))

/-- A listing is empty or begins with a statement. -/
theorem Listing.begins {d : Nat} {ts : List Token} {parts : List Part} {es : List Tree}
    {t : Option Tree} (h : Listing ts parts es t)
    (hparts : ∀ p ∈ parts, Phrase.Derives d .statement p.1 p.2) :
    ts = [] ∨ ∃ u us, ts = u :: us ∧ Phrase.statement.begins u.kind = true := by
  cases h with
  | nil => exact .inl rfl
  | tail => exact .inr (hparts _ (List.mem_singleton_self _)).begins
  | statement =>
    obtain ⟨u, us, h, hu⟩ := (hparts _ (List.mem_cons_self ..)).begins
    dsimp only at h
    subst h
    exact .inr ⟨u, _, rfl, hu⟩

theorem Arguments.begins {d : Nat} {ts : List Token} {parts : List Part} (h : Arguments ts parts)
    (hne : parts ≠ []) (hparts : ∀ p ∈ parts, Phrase.Derives d .expression p.1 p.2) :
    ∃ u us, ts = u :: us ∧ Phrase.expression.begins u.kind = true := by
  cases h with
  | nil => exact absurd rfl hne
  | last => exact (hparts _ (List.mem_singleton_self _)).begins
  | cons =>
    obtain ⟨u, us, h, hu⟩ := (hparts _ (List.mem_cons_self ..)).begins
    dsimp only at h
    subst h
    exact ⟨u, _, rfl, hu⟩

/-- No end of line comes before a listing and what closes it. -/
theorem Listing.head_ne_endOfLine {d : Nat} {ts : List Token} {parts : List Part} {es : List Tree}
    {t : Option Tree} {closer : Token} (h : Listing ts parts es t) (rest : List Token)
    (hparts : ∀ p ∈ parts, Phrase.Derives d .statement p.1 p.2) (hc : closer.kind ≠ .endOfLine) :
    ∃ u us, ts ++ closer :: rest = u :: us ∧ u.kind ≠ .endOfLine := by
  rcases h.begins hparts with rfl | ⟨u, us, rfl, hu⟩
  · exact ⟨closer, rest, rfl, hc⟩
  · exact ⟨u, _, rfl, Phrase.ne_of_begins hu rfl⟩

namespace Rule

variable {S : Setting} {d n : Nat} {ts rest : List Token}

theorem skipEndsOfLine_reads {ends us : List Token} (hends : EndsOfLine ends)
    (hus : ∃ u vs, us = u :: vs ∧ u.kind ≠ .endOfLine) (hlength : ends.length < S.rounds) :
    Reads (skipEndsOfLine S) (ends ++ us) ⟨⟩ us := by
  obtain ⟨u, vs, rfl, hu⟩ := hus
  induction ends generalizing S with
  | nil =>
    refine Reads.repeatUpTo_stop ((Reads.nextIs .endOfLine).bind ?_) hlength
    rw [if_neg (by simpa using hu)]
    exact Reads.pure
  | cons e ends ih =>
    obtain ⟨table, rounds⟩ := S
    obtain ⟨n, rfl⟩ : ∃ n, rounds = n + 1 := ⟨rounds - 1, by simp at hlength; omega⟩
    have he : e.kind = .endOfLine := hends e (List.mem_cons_self ..)
    have hrest : Reads (skipEndsOfLine ⟨table, n⟩) (ends ++ u :: vs) ⟨⟩ (u :: vs) :=
      ih (fun t ht => hends t (List.mem_cons_of_mem _ ht)) (by simpa using hlength)
    refine Reads.repeatUpTo_next ((Reads.nextIs .endOfLine).bind ?_) hrest
    rw [if_pos (by simpa using he)]
    exact (Reads.advance (by simp [he])).bind Reads.pure

/-- A callee is not called where no parentheses open. -/
theorem callStep_stops {r : Rules} {F : Tree} {t : Token} (h : t.kind ≠ .leftParen) :
    Reads (callStep r F) (t :: rest) (.inr F) (t :: rest) := by
  refine (Reads.nextIs .leftParen).bind ?_
  rw [if_neg (by simpa using h)]
  exact Reads.pure

/-- Climbing stops at what does not join more strongly. -/
theorem climbStep_stops {r : Rules} {p : Nat} {A : Tree} {t : Token}
    (hpower : ∀ q, S.table.bindingPower? t.kind = some q → q ≤ p)
    (hequal : t.kind = .equal → 0 < p) :
    Reads (climbStep S r p A) (t :: rest) (.inr A) (t :: rest) := by
  refine Reads.peek.bind ?_
  split
  · next ht =>
    rw [if_pos (by exact_mod_cast hequal ht)]
    exact Reads.pure
  · split
    · exact Reads.pure
    · next q hq =>
      rw [if_pos (by exact_mod_cast hpower q hq)]
      exact Reads.pure

/-- A step of climbing takes an operator that joins more strongly, and its right operand. -/
theorem climbStep_reads_operator {r : Rules} {op : Token} {o : BinaryOperator} {p q : Nat}
    {A B : Tree} (ho : BinaryOperator.ofKind? op.kind = some o)
    (hq : S.table.bindingPower? op.kind = some q) (hpq : p < q)
    (h : Reads (r.expression q) ts B rest) :
    Reads (climbStep S r p A) (op :: ts) (.inl (.binary (A.span.union B.span) o A B)) rest := by
  have hne : op.kind ≠ .equal ∧ op.kind ≠ .endOfInput := by
    constructor <;> intro hk <;> rw [hk] at ho <;> cases ho
  have hright : Reads (infixed r op q A) (op :: ts) (.binary (A.span.union B.span) o A B) rest := by
    refine (Reads.advance hne.2).bind (h.bind ?_)
    rw [ho]
    exact Reads.pure
  refine Reads.peek.bind ?_
  rw [if_neg hne.1, hq]
  dsimp only
  rw [if_neg (by omega)]
  exact hright.bind Reads.pure

/-- How far an expression above `p` has come when the operands `ts`, joined by operators of at least
the power `m`, are over and `rest` is left. -/
def Climbs (S : Setting) (d m : Nat) (ts : List Token) (T : Tree) (rest : List Token) : Prop :=
  ∃ d', d = d' + 1 ∧ ∀ p : Nat, p < m → ∃ first ts₁ k, k ≤ ts.length ∧
    Reads (rulesAt S d').operand (ts ++ rest) first ts₁ ∧
    Repeats (climbStep S (rulesAt S d') p) first ts₁ k T rest

/-- The rules with room for `d` calls read a phrase, given what must not follow it. -/
def Completes (S : Setting) (d : Nat) (ts : List Token) (T : Tree) (rest : List Token) :
    Phrase → Prop
  | .statement => EndsStatement rest → Reads (rulesAt S d).statement (ts ++ rest) T rest
  | .expression => Stops 0 rest → Reads ((rulesAt S d).expression (0 : Nat)) (ts ++ rest) T rest
  | .layer l => JoinsAtMost l.power rest → Climbs S d l.power ts T rest
  | .operand => JoinsAtMost 6 rest →
    ∃ d', d = d' + 1 ∧ Reads (rulesAt S d').operand (ts ++ rest) T rest
  | .application => ∃ d', d = d' + 2 ∧ ∃ first ts₁ k, k ≤ ts.length ∧
    Reads (rulesAt S d').primary (ts ++ rest) first ts₁ ∧
    Repeats (callStep (rulesAt S d')) first ts₁ k T rest
  | .primary => ∃ d', d = d' + 2 ∧ Reads (rulesAt S d').primary (ts ++ rest) T rest
  | .block => Reads (rulesAt S d).block (ts ++ rest) T rest

/-- An expression ends where its operands end, if nothing more joins them. -/
theorem Climbs.reads {m p : Nat} {T : Tree} (h : Climbs S d m ts T rest) (hS : S.table = .standard)
    (hp : p < m) (hrest : Stops p rest) (hlength : (ts ++ rest).length < S.rounds) :
    Reads ((rulesAt S d).expression p) (ts ++ rest) T rest := by
  obtain ⟨d', rfl, h⟩ := h
  obtain ⟨first, ts₁, k, hk, hfirst, hrepeats⟩ := h p hp
  cases rest with
  | nil => exact absurd hrest (by simp [Stops])
  | cons t rest =>
    obtain ⟨⟨_, hpower⟩, hequal⟩ := hrest
    have hstop : Reads (climbStep S (rulesAt S d') p T) (t :: rest) (.inr T) (t :: rest) :=
      climbStep_stops (hS ▸ hpower) hequal
    rw [List.length_append] at hlength
    exact hfirst.bind (hrepeats.reads hstop (by omega))

theorem Climbs.of_operand {T : Tree} (h : Completes S d ts T rest .operand)
    (hrest : JoinsAtMost 6 rest) {m : Nat} : Climbs S d m ts T rest := by
  obtain ⟨d', rfl, hT⟩ := h hrest
  exact ⟨d', rfl, fun p _ => ⟨T, rest, 0, Nat.zero_le _, hT, .refl⟩⟩

theorem Climbs.of_tighter {l : Layer} {T : Tree} (h : Completes S d ts T rest l.tighter)
    (hrest : JoinsAtMost l.power rest) : Climbs S d (l.power + 1) ts T rest := by
  cases l with
  | product => exact .of_operand h hrest
  | _ => exact h (hrest.mono (by decide))

theorem Climbs.mono {m m' : Nat} {T : Tree} (h : Climbs S d m ts T rest) (hm : m' ≤ m) :
    Climbs S d m' ts T rest := by
  obtain ⟨d', rfl, h⟩ := h
  exact ⟨d', rfl, fun p hp => h p (Nat.lt_of_lt_of_le hp hm)⟩

/-- **Loop over a listing**: a step that reads a statement and the ends of line after it reads a whole
listing, if it ends properly, with or without a tail. -/
theorem listing_reads {β : Type} (step : List Tree → ReadM (List Tree ⊕ β))
    (result : List Tree → Option Tree → β) {parts : List Part} {es : List Tree} {t : Option Tree}
    {closer : Token} (hc : closer.kind ≠ .endOfLine) (rest : List Token) (h : Listing ts parts es t)
    (hparts : ∀ p ∈ parts, Phrase.Derives d .statement p.1 p.2)
    (hend : ∀ done, Reads (step done) (closer :: rest) (.inr (result done none)) (closer :: rest))
    (htail : ∀ p ∈ parts, ∀ done n, p.1.length < n → (p.1 ++ closer :: rest).length < S.rounds →
      Reads (repeatUpTo step n done) (p.1 ++ closer :: rest) (result done (some p.2))
        (closer :: rest))
    (hnext : ∀ p ∈ parts, ∀ done ends us, ends ≠ [] → EndsOfLine ends →
      (∃ u vs, us = u :: vs ∧ u.kind ≠ .endOfLine) → (p.1 ++ (ends ++ us)).length < S.rounds →
      Reads (step done) (p.1 ++ (ends ++ us)) (.inl (p.2 :: done)) us)
    (done : List Tree) (hn : ts.length < n) (hlength : (ts ++ closer :: rest).length < S.rounds) :
    Reads (repeatUpTo step n done) (ts ++ closer :: rest) (result (es.reverse ++ done) t)
      (closer :: rest) := by
  induction h generalizing done n with
  | nil => exact Reads.repeatUpTo_stop (hend done) hn
  | tail => exact htail _ (List.mem_singleton_self _) done n hn hlength
  | @statement us T ends vs parts es t hne hends hvs ih =>
    obtain ⟨n, rfl⟩ : ∃ m, n = m + 1 := ⟨n - 1, by omega⟩
    have hpos : 0 < ends.length := List.length_pos_iff.2 hne
    have hhead := hvs.head_ne_endOfLine rest
      (fun p hp => hparts p (List.mem_cons_of_mem _ hp)) hc
    simp only [List.append_assoc, List.length_append] at hn hlength ⊢
    rw [List.reverse_cons, List.append_assoc]
    refine Reads.repeatUpTo_next
      (hnext _ (List.mem_cons_self ..) done ends _ hne hends hhead
        (by simp only [List.length_append]; omega)) ?_
    exact ih (fun p hp => hparts p (List.mem_cons_of_mem _ hp))
      (fun p hp => htail p (List.mem_cons_of_mem _ hp))
      (fun p hp => hnext p (List.mem_cons_of_mem _ hp)) (T :: done) (by omega)
      (by simp only [List.length_append]; omega)

/-- All parts are read as statements wherever a statement may end. -/
def StatementsRead (S : Setting) (d : Nat) (parts : List Part) : Prop :=
  ∀ p ∈ parts, Phrase.Derives d .statement p.1 p.2 ∧ ∀ rest, (p.1 ++ rest).length < S.rounds →
    EndsStatement rest → Reads (rulesAt S d).statement (p.1 ++ rest) p.2 rest

theorem blockStep_end (opener : Token) (done : List Tree) {closer : Token}
    (hc : closer.kind = .rightBrace) :
    Reads (blockStep S (rulesAt S d) opener done) (closer :: rest) (.inr (done.reverse, none))
      (closer :: rest) := by
  refine Reads.peek.bind ?_
  simp only [hc]
  exact Reads.pure

theorem blockStep_tail {us : List Token} {T : Tree} (hT : Phrase.Derives d .statement us T)
    (opener : Token) (done : List Tree) {closer : Token} (hc : closer.kind = .rightBrace)
    (hreads : Reads (rulesAt S d).statement (us ++ closer :: rest) T (closer :: rest)) :
    Reads (blockStep S (rulesAt S d) opener done) (us ++ closer :: rest)
      (.inr (done.reverse, some T)) (closer :: rest) := by
  obtain ⟨u, us, rfl, hu⟩ := hT.begins
  refine Reads.peek.bind ?_
  split
  · next h => exact absurd h (Phrase.ne_of_begins hu rfl)
  · next h => exact absurd h (Phrase.ne_of_begins hu rfl)
  · refine hreads.bind (Reads.peek.bind ?_)
    simp only [hc]
    exact Reads.pure

theorem blockStep_next {us ends vs : List Token} {T : Tree} (hT : Phrase.Derives d .statement us T)
    (opener : Token) (done : List Tree) (hne : ends ≠ []) (hends : EndsOfLine ends)
    (hvs : ∃ v ws, vs = v :: ws ∧ v.kind ≠ .endOfLine) (hlength : ends.length < S.rounds)
    (hreads : Reads (rulesAt S d).statement (us ++ (ends ++ vs)) T (ends ++ vs)) :
    Reads (blockStep S (rulesAt S d) opener done) (us ++ (ends ++ vs)) (.inl (T :: done)) vs := by
  obtain ⟨u, us, rfl, hu⟩ := hT.begins
  obtain ⟨e, ends, rfl⟩ := List.exists_cons_of_ne_nil hne
  have he : e.kind = .endOfLine := hends e (List.mem_cons_self ..)
  refine Reads.peek.bind ?_
  split
  · next h => exact absurd h (Phrase.ne_of_begins hu rfl)
  · next h => exact absurd h (Phrase.ne_of_begins hu rfl)
  · refine hreads.bind (Reads.peek.bind ?_)
    simp only [he]
    exact (skipEndsOfLine_reads hends hvs hlength).bind Reads.pure

theorem block_reads {opener closer : Token} {ends : List Token} {parts : List Part} {es : List Tree}
    {t : Option Tree} (ho : opener.kind = .leftBrace) (hends : EndsOfLine ends)
    (hts : Listing ts parts es t) (hparts : StatementsRead S d parts)
    (hc : closer.kind = .rightBrace)
    (hlength : (opener :: (ends ++ (ts ++ [closer])) ++ rest).length < S.rounds) :
    Reads (block S (rulesAt S d)) (opener :: (ends ++ (ts ++ [closer])) ++ rest)
      (.block (opener.span.union closer.span) es t) rest := by
  have hderives := fun p hp => (hparts p hp).1
  have hne : closer.kind ≠ .endOfLine := by simp [hc]
  simp only [List.append_assoc, List.cons_append, List.nil_append, List.length_append,
    List.length_cons] at hlength ⊢
  have hloop := listing_reads (S := S) (n := S.rounds) (blockStep S (rulesAt S d) opener)
    (fun done t => (done.reverse, t)) hne rest hts hderives
    (fun done => blockStep_end opener done hc)
    (fun p hp done n hn hlength =>
      Reads.repeatUpTo_stop (blockStep_tail (hparts p hp).1 opener done hc
        ((hparts p hp).2 _ hlength (.inr (.inr hc)))) (Nat.zero_lt_of_lt hn))
    (fun p hp done ends us hne hends hus hlength =>
      blockStep_next (hparts p hp).1 opener done hne hends hus
        (by simp only [List.length_append] at hlength; omega)
        ((hparts p hp).2 _ hlength (hends.endsStatement hne)))
    [] (by omega) (by simp only [List.length_append, List.length_cons]; omega)
  rw [List.append_nil, List.reverse_reverse] at hloop
  refine (Reads.expect ho (by decide)).bind ?_
  refine (skipEndsOfLine_reads hends (hts.head_ne_endOfLine rest hderives hne) (by omega)).bind ?_
  exact hloop.bind ((Reads.advance (by simp [hc])).bind Reads.pure)

theorem declaration_reads {opener name : Token} {s : String} (us : List Token) {V : Tree}
    {span : Span} (ho : opener.kind = .varWord) (hn : name.IsName s)
    (h : Reads (initializer (rulesAt S d) opener name) (us ++ rest) (span, V) rest) :
    Reads (declaration (rulesAt S d)) (opener :: name :: us ++ rest) (.declaration span s V)
      rest := by
  refine (Reads.expect ho (by decide)).bind ((Reads.expect hn.1 (by decide)).bind (h.bind ?_))
  have hname : nameOf? name = some s := by simp only [nameOf?, hn.2]
  rw [hname]
  exact Reads.note.bind Reads.pure

theorem declaration_reads_value {opener name equal : Token} {s : String} {V : Tree}
    (ho : opener.kind = .varWord) (hn : name.IsName s) (he : equal.kind = .equal)
    (h : Reads ((rulesAt S d).expression (0 : Nat)) (ts ++ rest) V rest) :
    Reads (declaration (rulesAt S d)) (opener :: name :: equal :: ts ++ rest)
      (.declaration (opener.span.union V.span) s V) rest := by
  refine declaration_reads (equal :: ts) ho hn (Reads.peek.bind ?_)
  simp only [he]
  exact (Reads.advance (by simp [he])).bind (h.bind Reads.pure)

theorem declaration_reads_bare {opener name : Token} {s : String} (ho : opener.kind = .varWord)
    (hn : name.IsName s) (hrest : EndsStatement rest) :
    Reads (declaration (rulesAt S d)) ([opener, name] ++ rest)
      (.declaration (opener.span.union name.span) s (.literal name.span .null)) rest := by
  refine declaration_reads [] ho hn ?_
  cases rest with
  | nil => exact absurd hrest (by simp [EndsStatement])
  | cons t rest =>
    refine Reads.peek.bind ?_
    rcases hrest with hk | hk | hk <;> simp only [hk] <;> exact Reads.pure

theorem statement_reads_declaration {opener : Token} {us : List Token} {T : Tree}
    (ho : opener.kind = .varWord)
    (h : Reads (rulesAt S d).declaration (opener :: us ++ rest) T rest) :
    Reads (statement (rulesAt S d)) (opener :: us ++ rest) T rest := by
  refine Reads.peek.bind ?_
  simp only [ho]
  exact h

/-- All parts are read as expressions wherever an expression may end. -/
def ExpressionsRead (S : Setting) (d : Nat) (parts : List Part) : Prop :=
  ∀ p ∈ parts, Phrase.Derives d .expression p.1 p.2 ∧ ∀ rest, (p.1 ++ rest).length < S.rounds →
    Stops 0 rest → Reads ((rulesAt S d).expression (0 : Nat)) (p.1 ++ rest) p.2 rest

/-- The arguments after those in `done` are read one by one, each with the comma behind it. -/
theorem argumentSteps_read (opener : Token) {closer : Token} {parts : List Part}
    (hts : Arguments ts parts) (hne : parts ≠ []) (hparts : ExpressionsRead S d parts)
    (hc : closer.kind = .rightParen)
    (hlength : (ts ++ closer :: rest).length < S.rounds) {n : Nat} (hn : ts.length < n)
    (done : List Tree) :
    Reads (repeatUpTo (argumentStep (rulesAt S d) opener) n done) (ts ++ closer :: rest)
      (done.reverse ++ parts.map Prod.snd) (closer :: rest) := by
  induction hts generalizing n done with
  | nil => exact absurd rfl hne
  | @last us T =>
    have hT := (hparts _ (List.mem_singleton_self _)).2 _ hlength
      (stops_of_isClosing (by rw [hc]; rfl))
    refine Reads.repeatUpTo_stop (hT.bind (Reads.peek.bind ?_)) (Nat.zero_lt_of_lt hn)
    simp only [hc, List.reverse_cons]
    exact Reads.pure
  | @cons us T comma vs part parts hcomma hvs ih =>
    simp only [List.append_assoc, List.cons_append, List.length_append, List.length_cons]
      at hlength hn ⊢
    obtain ⟨n, rfl⟩ : ∃ m, n = m + 1 := ⟨n - 1, by omega⟩
    have hT := (hparts _ (List.mem_cons_self ..)).2 (comma :: (vs ++ closer :: rest))
      (by simp only [List.length_append, List.length_cons]; omega)
      (stops_of_isClosing (by rw [hcomma]; rfl))
    have hrest := ih (by simp) (fun p hp => hparts p (List.mem_cons_of_mem _ hp))
      (by simp only [List.length_append, List.length_cons]; omega) (n := n) (by omega) (T :: done)
    rw [List.reverse_cons, List.append_assoc] at hrest
    refine Reads.repeatUpTo_next (hT.bind (Reads.peek.bind ?_)) hrest
    simp only [hcomma]
    exact (Reads.advance (by simp [hcomma])).bind Reads.pure

theorem arguments_reads {opener closer : Token} {parts : List Part} (hts : Arguments ts parts)
    (hparts : ExpressionsRead S d parts) (hc : closer.kind = .rightParen)
    (hlength : (ts ++ closer :: rest).length < S.rounds) :
    Reads (arguments S (rulesAt S d) opener) (ts ++ closer :: rest) (parts.map Prod.snd)
      (closer :: rest) := by
  have hrounds : ts.length < S.rounds := by
    rw [List.length_append] at hlength
    omega
  by_cases hne : parts = []
  · subst hne
    cases hts
    refine (Reads.nextIs .rightParen).bind ?_
    rw [if_pos (by simpa using hc)]
    exact Reads.pure
  · have hsteps := argumentSteps_read opener hts hne hparts hc hlength hrounds []
    obtain ⟨u, us, heq, hu⟩ := hts.begins hne fun p hp => (hparts p hp).1
    rw [heq] at hsteps ⊢
    refine (Reads.nextIs .rightParen).bind ?_
    rw [if_neg (by simpa using Phrase.ne_of_begins hu rfl)]
    exact hsteps

theorem call_reads (rest : List Token) {opener closer : Token} {parts : List Part} (F : Tree)
    (ho : opener.kind = .leftParen) (hts : Arguments ts parts) (hparts : ExpressionsRead S d parts)
    (hc : closer.kind = .rightParen)
    (hlength : (opener :: (ts ++ [closer]) ++ rest).length < S.rounds) :
    Reads (call S (rulesAt S d) (some F)) (opener :: (ts ++ [closer]) ++ rest)
      (.call (F.span.union closer.span) F (parts.map Prod.snd)) rest := by
  simp only [List.append_assoc, List.cons_append, List.nil_append, List.length_append,
    List.length_cons] at hlength ⊢
  have hargs : Reads (arguments S (rulesAt S d) opener) (ts ++ closer :: rest)
      (parts.map Prod.snd) (closer :: rest) :=
    arguments_reads hts hparts hc (by simp only [List.length_append, List.length_cons]; omega)
  have hlist : Reads (argumentList S (rulesAt S d)) (opener :: (ts ++ closer :: rest))
      (parts.map Prod.snd, closer) rest :=
    (Reads.expect ho (by decide)).bind
      (hargs.bind ((Reads.advance (by simp [hc])).bind Reads.pure))
  exact hlist.bind Reads.pure

/-- What is called once more is the callee of the next call. -/
theorem callStep_reads {F T : Tree} {opener : Token} (ho : opener.kind = .leftParen)
    (h : Reads ((rulesAt S d).call (some F)) (opener :: ts ++ rest) T rest) :
    Reads (callStep (rulesAt S d) F) (opener :: ts ++ rest) (.inl T) rest := by
  refine (Reads.nextIs .leftParen).bind ?_
  rw [if_pos (by simpa using ho)]
  exact h.bind Reads.pure

theorem primary_reads_literal {t : Token} {v : Value} (h : Phrase.literal? t = some v) :
    Reads (primary (rulesAt S d)) (t :: rest) (.literal t.span v) rest := by
  refine Reads.peek.bind ?_
  unfold Phrase.literal? at h
  split at h
  · next s hk hp =>
    cases h
    have hv : valueOf t = .string s := by simp only [valueOf, hp]
    simp only [hk, hv]
    exact (Reads.advance (by simp [hk])).bind Reads.pure
  · next x hk hp =>
    cases h
    have hv : valueOf t = .number x := by simp only [valueOf, hp]
    simp only [hk, hv]
    exact (Reads.advance (by simp [hk])).bind Reads.pure
  · next hk =>
    cases h
    simp only [hk]
    exact (Reads.advance (by simp [hk])).bind Reads.pure
  · next hk =>
    cases h
    simp only [hk]
    exact (Reads.advance (by simp [hk])).bind Reads.pure
  · cases h

theorem primary_reads_reference {t : Token} {s : String} (h : t.IsName s) :
    Reads (primary (rulesAt S d)) (t :: rest) (.reference t.span s) rest := by
  have hname : referenceTo t = .reference t.span s := by simp only [referenceTo, nameOf?, h.2]
  refine Reads.peek.bind ?_
  simp only [h.1, hname]
  exact (Reads.advance (by simp [h.1])).bind Reads.pure

theorem parenthesized_reads {opener closer : Token} {T : Tree} (ho : opener.kind = .leftParen)
    (h : Reads ((rulesAt S d).expression (0 : Nat)) (ts ++ closer :: rest) T (closer :: rest))
    (hc : closer.kind = .rightParen) :
    Reads (parenthesized (rulesAt S d)) (opener :: (ts ++ [closer]) ++ rest)
      (T.withSpan (opener.span.union closer.span)) rest := by
  simp only [List.append_assoc, List.cons_append, List.nil_append]
  refine (Reads.expect ho (by decide)).bind (h.bind (Reads.peek.bind ?_))
  simp only [hc]
  exact (Reads.advance (by simp [hc])).bind Reads.pure

theorem primary_reads_parenthesized {opener : Token} {T : Tree} (ho : opener.kind = .leftParen)
    (h : Reads (rulesAt S d).parenthesized (opener :: ts ++ rest) T rest) :
    Reads (primary (rulesAt S d)) (opener :: ts ++ rest) T rest := by
  refine Reads.peek.bind ?_
  simp only [ho]
  exact h

/-- A word and the block behind it. -/
theorem primary_reads_doBlock {word : Token} {B : Tree} (hw : word.kind = .doWord)
    (h : Reads (rulesAt S d).block (ts ++ rest) B rest) :
    Reads (primary (rulesAt S d)) (word :: ts ++ rest) (.doBlock (word.span.union B.span) B)
      rest := by
  refine Reads.peek.bind ?_
  simp only [hw]
  exact (Reads.advance (by simp [hw])).bind (h.bind Reads.pure)

theorem primary_reads_loop {word : Token} {B : Tree} (hw : word.kind = .loopWord)
    (h : Reads (rulesAt S d).block (ts ++ rest) B rest) :
    Reads (primary (rulesAt S d)) (word :: ts ++ rest) (.loop (word.span.union B.span) B)
      rest := by
  refine Reads.peek.bind ?_
  simp only [hw]
  exact (Reads.advance (by simp [hw])).bind (h.bind Reads.pure)

theorem operand_reads_unary {op : Token} {o : UnaryOperator} {A : Tree} (hS : S.table = .standard)
    (ho : Phrase.sign? op.kind = some o)
    (h : Reads (rulesAt S d).operand (ts ++ rest) A rest) :
    Reads (operand S (rulesAt S d)) (op :: ts ++ rest) (.unary (op.span.union A.span) o A)
      rest := by
  have hk : op.kind ≠ .endOfInput := by
    intro hk
    rw [hk] at ho
    exact absurd ho (by simp [Phrase.sign?])
  have hsigned : Reads (signed (rulesAt S d) op o.name) (op :: ts ++ rest)
      (.unary (op.span.union A.span) o A) rest := by
    refine (Reads.advance hk).bind (h.bind ?_)
    rw [UnaryOperator.ofName?_name]
    exact Reads.pure
  refine Reads.peek.bind ?_
  rw [hS, Phrase.unary?_standard, ho]
  exact hsigned

/-- Without a sign in front, an operand is read as a primary expression with its calls. -/
theorem operand_reads_application {T : Tree} (hS : S.table = .standard)
    (hT : Phrase.Derives (d + 2) .application ts T)
    (h : Completes S (d + 2) ts T rest .application) (hrest : JoinsAtMost 6 rest)
    (hlength : (ts ++ rest).length < S.rounds) :
    Reads (operand S (rulesAt S d)) (ts ++ rest) T rest := by
  obtain ⟨u, us, rfl, hu⟩ := hT.begins
  obtain ⟨_, hd, first, ts₁, k, hk, hfirst, hrepeats⟩ := h
  cases hd
  have hsign : Phrase.sign? u.kind = none := by
    generalize u.kind = k at hu
    cases k <;> first | rfl | exact absurd hu (by decide)
  have hstop : Reads (callStep (rulesAt S d) T) rest (.inr T) rest := by
    cases rest with
    | nil => exact absurd hrest (by simp [JoinsAtMost])
    | cons t rest => exact callStep_stops hrest.1
  rw [List.length_append] at hlength
  refine Reads.peek.bind ?_
  rw [hS, Phrase.unary?_standard, hsign]
  exact hfirst.bind (hrepeats.reads hstop (by omega))

/-- An assignment is read in the first step after its name, which stands as long as it is. -/
theorem expression_reads_assignment {name equal : Token} {s : String} {V : Tree}
    (hS : S.table = .standard) (hn : name.IsName s) (hfits : name.NameFits) (he : equal.kind = .equal)
    (h : Reads ((rulesAt S d).expression (0 : Nat)) (ts ++ rest) V rest) (hd : 2 ≤ d)
    (hlength : 1 < S.rounds) :
    Reads (expression S (rulesAt S d) (0 : Nat)) (name :: equal :: ts ++ rest)
      (.assignment (name.span.union V.span) s V) rest := by
  have hname : Tree.bareName? (.reference name.span s) = some s := by
    rw [Tree.bareName?, if_pos (hfits s hn.1 hn.2)]
  have hleft : Reads (rulesAt S d).operand (name :: equal :: (ts ++ rest))
      (.reference name.span s) (equal :: (ts ++ rest)) := by
    obtain ⟨d, rfl⟩ : ∃ d', d = d' + 2 := ⟨d - 2, by omega⟩
    have hstop : Reads (callStep (rulesAt S (d + 1)) (.reference name.span s))
        (equal :: (ts ++ rest)) (.inr (.reference name.span s)) (equal :: (ts ++ rest)) :=
      callStep_stops (by simp [he])
    have hprimary : Reads (rulesAt S (d + 1)).primary (name :: equal :: (ts ++ rest))
        (.reference name.span s) (equal :: (ts ++ rest)) := primary_reads_reference hn
    refine Reads.peek.bind ?_
    rw [hS, Phrase.unary?_standard, hn.1]
    exact hprimary.bind (Reads.repeatUpTo_stop hstop (by omega))
  have hassign : Reads (assignment (rulesAt S d) equal (.reference name.span s))
      (equal :: (ts ++ rest)) (.assignment (name.span.union V.span) s V) rest := by
    have htarget : target equal (.reference name.span s) = pure s := by
      simp only [target, hname]
    rw [assignment, htarget]
    exact Reads.pure.bind ((Reads.advance (by simp [he])).bind (h.bind Reads.pure))
  have hstep : Reads (climbStep S (rulesAt S d) (0 : Nat) (.reference name.span s))
      (equal :: (ts ++ rest)) (.inr (.assignment (name.span.union V.span) s V)) rest := by
    refine Reads.peek.bind ?_
    rw [if_pos he, if_neg (by decide)]
    exact hassign.bind Reads.pure
  exact hleft.bind (Reads.repeatUpTo_stop hstep (by omega))

end Rule

open Rule

variable {S : Setting} {d : Nat} {ts : List Token} {T : Tree}

/-- **Completeness**: the rules read every phrase that is derived, with rounds for all tokens. -/
theorem Phrase.Derives.completes {x : Phrase} (h : Derives d x ts T) (hS : S.table = .standard)
    (hfits : ∀ t ∈ ts, t.NameFits) (rest : List Token) (hlength : (ts ++ rest).length < S.rounds) :
    Completes S d ts T rest x := by
  -- Every left-recursive phrase comes to what its loop does, and its operands to a level below.
  induction h generalizing rest with
  | @declaration d opener name equal s v V ho hn he _ ih =>
    intro hrest
    have hV := ih (fun t ht => hfits t (by simp [ht])) rest (by simp at hlength ⊢; omega) hrest.stops
    exact statement_reads_declaration ho (declaration_reads_value ho hn he hV)
  | @bareDeclaration d opener name s ho hn =>
    intro hrest
    exact statement_reads_declaration ho (declaration_reads_bare ho hn hrest)
  | @evaluation d ts T h ih =>
    intro hrest
    have hT := ih hfits rest hlength hrest.stops
    obtain ⟨u, us, rfl, hu⟩ := h.begins
    refine Reads.peek.bind ?_
    -- No expression begins with a word that only declarations begin with.
    split
    · next hk => exact absurd hk (Phrase.ne_of_begins hu rfl)
    · next hk => exact absurd hk (Phrase.ne_of_begins hu rfl)
    · exact hT
  | @assignment d name equal s v V hn he hv ih =>
    intro hrest
    have hV := ih (fun t ht => hfits t (by simp [ht])) rest (by simp at hlength ⊢; omega)
      hrest
    exact expression_reads_assignment hS hn (hfits name (by simp)) he hV
      (Nat.le_of_succ_le (hv.room nofun nofun)) (by simp at hlength; omega)
  | @operation d ts T _ ih =>
    intro hrest
    have hT := ih hfits rest hlength (hrest.joinsAtMost.mono (by decide))
    exact hT.reads hS (by decide) hrest hlength
  | @tighter d l ts T _ ih =>
    intro hrest
    exact (Climbs.of_tighter (ih hfits rest hlength) hrest).mono (Nat.le_succ _)
  | @binary d l op o a A b B _ ho _ iha ihb =>
    intro hrest
    simp only [List.append_assoc, List.cons_append, List.length_append, List.length_cons]
      at hlength ⊢
    have hpower := Layer.bindingPower?_of_operator? ho
    have hjoins : JoinsAtMost l.power (op :: (b ++ rest)) := by
      refine ⟨fun hk => ?_, fun q hq => ?_⟩
      · rw [hk] at hpower
        cases hpower
      · cases hpower.symm.trans hq
        exact Nat.le_refl _
    obtain ⟨_, hd, hA⟩ := iha (fun t ht => hfits t (by simp [ht])) (op :: (b ++ rest))
      (by simp only [List.length_append, List.length_cons]; omega) hjoins
    cases hd
    have hblength : (b ++ rest).length < S.rounds := by
      simp only [List.length_append]
      omega
    have hB := (Climbs.of_tighter (ihb (fun t ht => hfits t (by simp [ht])) rest hblength)
      hrest).reads hS (Nat.lt_succ_self _) hrest.stops hblength
    -- The left operand ends before the operator, which is one more repetition of the same loop.
    refine ⟨d, rfl, fun p hp => ?_⟩
    obtain ⟨first, ts₁, k, hk, hfirst, hrepeats⟩ := hA p hp
    refine ⟨first, ts₁, k + 1, ?_, ?_, hrepeats.snoc ?_⟩
    · simp only [List.length_append, List.length_cons]
      omega
    · simpa only [List.append_assoc, List.cons_append] using hfirst
    · exact climbStep_reads_operator (Layer.operator?_eq_some_iff.1 ho).2 (hS ▸ hpower) hp hB
  | @unary d op o a A ho _ ih =>
    intro hrest
    obtain ⟨_, rfl, hA⟩ := ih (fun t ht => hfits t (by simp [ht])) rest
      (by simp at hlength ⊢; omega) hrest
    exact ⟨_, rfl, operand_reads_unary hS ho hA⟩
  | @unsigned d ts T h ih =>
    intro hrest
    have hT := ih hfits rest hlength
    obtain ⟨d, rfl, _⟩ := id hT
    exact ⟨d + 1, rfl, operand_reads_application hS h hT hrest hlength⟩
  | @uncalled d ts T _ ih =>
    obtain ⟨d, rfl, hT⟩ := ih hfits rest hlength
    exact ⟨d, rfl, T, rest, 0, Nat.zero_le _, hT, .refl⟩
  | @call d f F opener ts parts closer _ ho hts hparts hc ihf ihparts =>
    simp only [List.append_assoc, List.cons_append, List.nil_append, List.length_append,
      List.length_cons] at hlength ⊢
    obtain ⟨_, hd, first, ts₁, k, hk, hfirst, hrepeats⟩ :=
      ihf (fun t ht => hfits t (by simp [ht])) (opener :: (ts ++ closer :: rest))
        (by simp only [List.length_append, List.length_cons]; omega)
    cases hd
    have hread : ExpressionsRead S d parts := fun p hp =>
      ⟨hparts p hp, ihparts p hp fun t ht => hfits t (by simp [hts.mem hp ht])⟩
    -- What is called ends before the parenthesis, and the call is one more repetition.
    have hcall : Reads ((rulesAt S (d + 1)).call (some F)) (opener :: (ts ++ [closer]) ++ rest)
        (.call (F.span.union closer.span) F (parts.map Prod.snd)) rest :=
      call_reads rest F ho hts hread hc
        (by simp only [List.length_append, List.length_cons, List.length_nil]; omega)
    have hstep := callStep_reads ho hcall
    simp only [List.append_assoc, List.cons_append, List.nil_append] at hstep
    refine ⟨d + 1, rfl, first, ts₁, k + 1, ?_, ?_, hrepeats.snoc hstep⟩
    · simp only [List.length_append, List.length_cons]
      omega
    · simpa only [List.append_assoc, List.cons_append, List.nil_append] using hfirst
  | @literal d t v h => exact ⟨d + 1, rfl, primary_reads_literal h⟩
  | @reference d t s h => exact ⟨d + 1, rfl, primary_reads_reference h⟩
  | @doBlock d word b B hw _ ih =>
    have hB := ih (fun t ht => hfits t (by simp [ht])) rest (by simp at hlength ⊢; omega)
    exact ⟨d + 1, rfl, primary_reads_doBlock hw hB⟩
  | @loop d word b B hw _ ih =>
    have hB := ih (fun t ht => hfits t (by simp [ht])) rest (by simp at hlength ⊢; omega)
    exact ⟨d + 1, rfl, primary_reads_loop hw hB⟩
  | @parenthesized d opener ts T closer ho _ hc ih =>
    have hT := ih (fun t ht => hfits t (by simp [ht])) (closer :: rest)
      (by simp at hlength ⊢; omega) (stops_of_isClosing (by rw [hc]; rfl))
    have hinner : Reads (rulesAt S (d + 1)).parenthesized (opener :: (ts ++ [closer]) ++ rest)
        (T.withSpan (opener.span.union closer.span)) rest := parenthesized_reads ho hT hc
    exact ⟨d + 2, rfl, primary_reads_parenthesized ho hinner⟩
  | @block d opener ends ts parts es t closer ho hends hts hparts hc ih =>
    have hread : StatementsRead S d parts := fun p hp =>
      ⟨hparts p hp, ih p hp fun t ht => hfits t (by simp [hts.mem hp ht])⟩
    exact block_reads ho hends hts hread hc hlength

/-- Statements that are derived are read wherever a statement may end. -/
theorem statementsRead {parts : List Part} (hS : S.table = .standard)
    (hparts : ∀ p ∈ parts, Phrase.Derives d .statement p.1 p.2)
    (hfits : ∀ p ∈ parts, ∀ t ∈ p.1, t.NameFits) : StatementsRead S d parts := fun p hp =>
  ⟨hparts p hp, (hparts p hp).completes hS (hfits p hp)⟩

/-- Only statements that begin with their word are declarations. -/
theorem Phrase.Derives.begins_of_declaration {x : Phrase} (h : Derives d x ts T) {s : Span}
    {n : String} {V : Tree} (hT : T = .declaration s n V) :
    x = .statement ∧ ∃ t rest, ts = t :: rest ∧ t.kind = .varWord := by
  induction h generalizing s with
  | declaration ho => exact ⟨rfl, _, _, rfl, ho⟩
  | bareDeclaration ho => exact ⟨rfl, _, _, rfl, ho⟩
  | evaluation _ ih => cases (ih hT).1
  | operation _ ih => cases (ih hT).1
  | @tighter _ l _ _ _ ih =>
    have hx := (ih hT).1
    cases l <;> cases hx
  | unsigned _ ih => cases (ih hT).1
  | uncalled _ ih => cases (ih hT).1
  | @parenthesized _ _ _ T _ _ _ _ ih =>
    obtain ⟨s', rfl⟩ : ∃ s', T = .declaration s' n V := by
      cases T <;> simp_all [Tree.withSpan]
    cases (ih rfl).1
  | _ => cases hT

/-- A declaration that is derived as a statement is read as a declaration. -/
theorem Phrase.Derives.declaration_reads {s : Span} {n : String} {V : Tree}
    (h : Derives (d + 1) .statement ts (.declaration s n V)) (hS : S.table = .standard)
    (hfits : ∀ t ∈ ts, t.NameFits) {rest : List Token} (hlength : (ts ++ rest).length < S.rounds)
    (hrest : EndsStatement rest) :
    Reads (rulesAt S d).declaration (ts ++ rest) (.declaration s n V) rest := by
  cases h with
  | @declaration _ opener name equal _ v _ ho hn he hv =>
    have hV := hv.completes hS (fun t ht => hfits t (by simp [ht])) rest
      (by simp at hlength ⊢; omega) hrest.stops
    exact declaration_reads_value ho hn he hV
  | bareDeclaration ho hn => exact declaration_reads_bare ho hn hrest
  | evaluation h => cases (h.begins_of_declaration rfl).1

namespace TextUnit

variable {eof : Token} {us ends : List Token}

theorem endOfStatement_reads {vs : List Token} (hne : ends ≠ []) (hends : EndsOfLine ends)
    (hvs : ∃ v ws, vs = v :: ws ∧ v.kind ≠ .endOfLine) (hlength : ends.length < S.rounds) {β : Type}
    {b : β} :
    Reads (do endOfStatement; skipEndsOfLine S; return b) (ends ++ vs) b vs := by
  obtain ⟨e, ends, rfl⟩ := List.exists_cons_of_ne_nil hne
  have he : e.kind = .endOfLine := hends e (List.mem_cons_self ..)
  have hskip : Reads (skipEndsOfLine S) (ends ++ vs) ⟨⟩ vs :=
    skipEndsOfLine_reads (fun t ht => hends t (List.mem_cons_of_mem _ ht)) hvs
      (Nat.lt_of_succ_lt hlength)
  have htake : Reads endOfStatement (e :: (ends ++ vs)) ⟨⟩ (ends ++ vs) := by
    refine Reads.peek.bind ?_
    simp only [he]
    exact (Reads.advance (by simp [he])).bind Reads.pure
  exact htake.bind (hskip.bind Reads.pure)

theorem endOfStatement_reads_endOfInput (heof : eof.kind = .endOfInput) (hS : 0 < S.rounds)
    {β : Type} {b : β} :
    Reads (do endOfStatement; skipEndsOfLine S; return b) [eof] b [eof] := by
  have hskip : Reads (skipEndsOfLine S) ([] ++ [eof]) ⟨⟩ [eof] :=
    skipEndsOfLine_reads (fun _ h => absurd h (by simp)) ⟨eof, [], rfl, by simp [heof]⟩ hS
  have htake : Reads endOfStatement [eof] ⟨⟩ [eof] := by
    refine Reads.peek.bind ?_
    simp only [heof]
    exact Reads.pure
  exact htake.bind (hskip.bind Reads.pure)

theorem programStep_end (done : List Tree) (heof : eof.kind = .endOfInput) :
    Reads (programStep S (rulesAt S d) done) [eof] (.inr done.reverse) [eof] := by
  refine Reads.peek.bind ?_
  simp only [heof]
  exact Reads.pure

/-- A step over a program reads a declaration with what comes between it and the next. -/
theorem programStep_next (done : List Tree) {vs ws : List Token} {s : Span} {n : String} {V : Tree}
    (hT : Phrase.Derives (d + 1) .statement us (.declaration s n V))
    (hreads : Reads (rulesAt S d).declaration (us ++ vs) (.declaration s n V) vs)
    (hrest : Reads (do endOfStatement; skipEndsOfLine S; return .inl (.declaration s n V :: done))
      vs (.inl (.declaration s n V :: done) : List Tree ⊕ List Tree) ws) :
    Reads (programStep S (rulesAt S d) done) (us ++ vs) (.inl (.declaration s n V :: done)) ws := by
  obtain ⟨_, u, us, rfl, hu⟩ := hT.begins_of_declaration rfl
  refine Reads.peek.bind ?_
  simp only [hu]
  exact hreads.bind hrest

theorem statementsStep_end (done : List Tree) (heof : eof.kind = .endOfInput) :
    Reads (statementsStep S (rulesAt S d) done) [eof] (.inr (done.reverse, none)) [eof] := by
  refine (Reads.nextIs .endOfInput).bind ?_
  rw [if_pos (by simpa using heof)]
  exact Reads.pure

theorem statementsStep_tail (done : List Tree) (hT : Phrase.Derives d .statement us T)
    (heof : eof.kind = .endOfInput)
    (hreads : Reads (rulesAt S d).statement (us ++ [eof]) T [eof]) :
    Reads (statementsStep S (rulesAt S d) done) (us ++ [eof]) (.inr (done.reverse, some T))
      [eof] := by
  obtain ⟨u, us, rfl, hu⟩ := hT.begins
  refine (Reads.nextIs .endOfInput).bind ?_
  rw [if_neg (by simpa using Phrase.ne_of_begins hu rfl)]
  refine hreads.bind ((Reads.nextIs .endOfInput).bind ?_)
  rw [if_pos (by simpa using heof)]
  exact Reads.pure

theorem statementsStep_next (done : List Tree) {vs : List Token} (hT : Phrase.Derives d .statement us T)
    (hne : ends ≠ []) (hends : EndsOfLine ends) (hvs : ∃ v ws, vs = v :: ws ∧ v.kind ≠ .endOfLine)
    (hlength : ends.length < S.rounds)
    (hreads : Reads (rulesAt S d).statement (us ++ (ends ++ vs)) T (ends ++ vs)) :
    Reads (statementsStep S (rulesAt S d) done) (us ++ (ends ++ vs)) (.inl (T :: done)) vs := by
  have hrest := endOfStatement_reads (S := S) (β := List Tree ⊕ List Tree × Option Tree)
    (b := .inl (T :: done)) hne hends hvs hlength
  obtain ⟨u, us, rfl, hu⟩ := hT.begins
  obtain ⟨e, ends, rfl⟩ := List.exists_cons_of_ne_nil hne
  have he : e.kind = .endOfLine := hends e (List.mem_cons_self ..)
  refine (Reads.nextIs .endOfInput).bind ?_
  rw [if_neg (by simpa using Phrase.ne_of_begins hu rfl)]
  refine hreads.bind ((Reads.nextIs .endOfInput).bind ?_)
  rw [if_neg (by simp [he])]
  exact hrest

section

variable {parts : List Part} {es : List Tree} {t : Option Tree}

theorem readProgram_reads (hS : S.table = .standard) (hends : EndsOfLine ends)
    (hts : Listing ts parts es t) (hparts : ∀ p ∈ parts, Phrase.Derives (d + 1) .statement p.1 p.2)
    (hdecl : ∀ p ∈ parts, ∃ s n e, p.2 = .declaration s n e) (heof : eof.kind = .endOfInput)
    (hfits : ∀ u ∈ ts, u.NameFits) (hlength : (ends ++ (ts ++ [eof])).length < S.rounds) :
    Reads (readProgram S (rulesAt S d)) (ends ++ (ts ++ [eof]))
      (.block (cover (es ++ t.toList)) (es ++ t.toList) none) [eof] := by
  have hne : eof.kind ≠ .endOfLine := by simp [heof]
  have hread : ∀ p ∈ parts, ∀ rest, (p.1 ++ rest).length < S.rounds → EndsStatement rest →
      ∃ s n V, p.2 = .declaration s n V ∧ Phrase.Derives (d + 1) .statement p.1 (.declaration s n V) ∧
        Reads (rulesAt S d).declaration (p.1 ++ rest) (.declaration s n V) rest := by
    intro p hp rest hlength hrest
    obtain ⟨s, n, V, hT⟩ := hdecl p hp
    have h := hparts p hp
    rw [hT] at h
    exact ⟨s, n, V, hT, h, h.declaration_reads hS
      (fun t ht => hfits t (hts.mem hp ht)) hlength hrest⟩
  simp only [List.length_append, List.length_singleton] at hlength
  have hloop := listing_reads (S := S) (n := S.rounds) (programStep S (rulesAt S d))
    (fun done t => done.reverse ++ t.toList) hne [] hts hparts
    (fun done => by simpa using programStep_end done heof)
    (fun p hp done n hn hlength => by
      -- A declaration at the end of input takes one step, and the end of input another.
      obtain ⟨s, x, V, hT, h, hreads⟩ := hread p hp [eof] hlength (.inr (.inl heof))
      obtain ⟨u, us, hus, _⟩ := h.begins
      obtain ⟨n, rfl⟩ : ∃ m, n = m + 1 := ⟨n - 1, by omega⟩
      have hpos : 0 < n := by
        rw [hus, List.length_cons] at hn
        omega
      have hfirst := programStep_next done h hreads
        (endOfStatement_reads_endOfInput heof (Nat.zero_lt_of_lt hlength))
      have hend := programStep_end (S := S) (d := d) (.declaration s x V :: done) heof
      rw [List.reverse_cons] at hend
      rw [hT]
      exact Reads.repeatUpTo_next hfirst (Reads.repeatUpTo_stop hend hpos))
    (fun p hp done ends us hne hends hus hlength => by
      obtain ⟨s, x, V, hT, h, hreads⟩ :=
        hread p hp (ends ++ us) hlength (hends.endsStatement hne)
      rw [hT]
      exact programStep_next done h hreads (endOfStatement_reads hne hends hus
        (by simp only [List.length_append] at hlength; omega)))
    [] (by omega) (by simp only [List.length_append, List.length_singleton]; omega)
  rw [List.append_nil, List.reverse_reverse] at hloop
  have hskip := skipEndsOfLine_reads (S := S) hends (hts.head_ne_endOfLine [] hparts hne)
    (by omega)
  exact hskip.bind (hloop.bind Reads.pure)

theorem readSingle_reads {T : Tree} {before after : List Token} (hS : S.table = .standard)
    (hbefore : EndsOfLine before) (h : Phrase.Derives d .statement ts T) (hafter : EndsOfLine after)
    (heof : eof.kind = .endOfInput) (hfits : ∀ u ∈ ts, u.NameFits)
    (hlength : (before ++ (ts ++ (after ++ [eof]))).length < S.rounds) :
    Reads (readSingle S (rulesAt S d)) (before ++ (ts ++ (after ++ [eof]))) T [eof] := by
  obtain ⟨u, us, hu, hbegins⟩ := h.begins
  simp only [List.length_append, List.length_singleton] at hlength
  have hends : EndsStatement (after ++ [eof]) := by
    cases after with
    | nil => exact .inr (.inl heof)
    | cons t after => exact .inl (hafter t (List.mem_cons_self ..))
  have hT := h.completes hS hfits (after ++ [eof])
    (by simp only [List.length_append, List.length_singleton]; omega) hends
  have hhead : ∃ v vs, ts ++ (after ++ [eof]) = v :: vs ∧ v.kind ≠ .endOfLine :=
    ⟨u, us ++ (after ++ [eof]), by rw [hu]; rfl, Phrase.ne_of_begins hbegins rfl⟩
  have hskip := skipEndsOfLine_reads (S := S) hbefore hhead (by omega)
  have hskip' := skipEndsOfLine_reads (S := S) hafter ⟨eof, [], rfl, by simp [heof]⟩ (by omega)
  refine hskip.bind (hT.bind (hskip'.bind (Reads.peek.bind ?_)))
  rw [if_pos heof]
  exact Reads.pure

theorem readStatements_reads (hS : S.table = .standard) (hends : EndsOfLine ends)
    (hts : Listing ts parts es t) (hparts : ∀ p ∈ parts, Phrase.Derives d .statement p.1 p.2)
    (heof : eof.kind = .endOfInput) (hfits : ∀ u ∈ ts, u.NameFits)
    (hlength : (ends ++ (ts ++ [eof])).length < S.rounds) :
    Reads (readStatements S (rulesAt S d)) (ends ++ (ts ++ [eof]))
      (.block (cover (es ++ t.toList)) es t) [eof] := by
  have hne : eof.kind ≠ .endOfLine := by simp [heof]
  have hread := statementsRead (S := S) hS hparts (fun p hp t ht => hfits t (hts.mem hp ht))
  simp only [List.length_append, List.length_singleton] at hlength
  have hloop := listing_reads (S := S) (n := S.rounds) (statementsStep S (rulesAt S d))
    (fun done t => (done.reverse, t)) hne [] hts hparts
    (fun done => statementsStep_end done heof)
    (fun p hp done n hn hlength =>
      Reads.repeatUpTo_stop (statementsStep_tail done (hread p hp).1 heof
        ((hread p hp).2 _ hlength (.inr (.inl heof)))) (Nat.zero_lt_of_lt hn))
    (fun p hp done ends us hne hends hus hlength =>
      statementsStep_next done (hread p hp).1 hne hends hus
        (by simp only [List.length_append] at hlength; omega)
        ((hread p hp).2 _ hlength (hends.endsStatement hne)))
    [] (by omega) (by simp only [List.length_append, List.length_singleton]; omega)
  rw [List.append_nil, List.reverse_reverse] at hloop
  have hskip := skipEndsOfLine_reads (S := S) hends (hts.head_ne_endOfLine [] hparts hne)
    (by omega)
  exact hskip.bind (hloop.bind Reads.pure)

end

/-- **Completeness**: the rules read every text that is derived, with rounds for all tokens. -/
theorem Derives.reads {u : TextUnit} (h : Derives d u ts T) (hS : S.table = .standard)
    (hfits : ∀ t ∈ ts, t.NameFits) (hlength : ts.length < S.rounds) :
    ∃ eof, Reads (u.read S (rulesAt S d)) ts T [eof] := by
  cases h with
  | @program ends ts parts es t eof hends hts hparts hdecl heof =>
    exact ⟨eof, readProgram_reads hS hends hts hparts hdecl heof
      (fun u hu => hfits u (by simp [hu])) hlength⟩
  | @single before ts T after eof hbefore h hafter heof =>
    exact ⟨eof, readSingle_reads hS hbefore h hafter heof (fun u hu => hfits u (by simp [hu]))
      hlength⟩
  | @statements ends ts parts es t eof hends hts hparts heof =>
    exact ⟨eof, readStatements_reads hS hends hts hparts heof
      (fun u hu => hfits u (by simp [hu])) hlength⟩

end TextUnit

end Curly
