import Curly.Proofs.Grammar.Basic
import Curly.Proofs.Token.Sequence

/-!
# The shape of derived trees

What a derivation says about its tokens and its tree without being taken apart.

## Main statements

* `Phrase.Derives.begins`: the kinds of tokens that a phrase begins with.
* `Phrase.Derives.covers`: the span of a tree goes from the first of its tokens to the last.
* `Phrase.Derives.bareName`: only a name without parentheses is a bare name.
* `Phrase.Derives.mono`: a derivation may be nested less deeply than the bound.
* `Phrase.Derives.room`: how deep every expression goes.
-/

namespace Curly

namespace Phrase

/-- The kinds of tokens that a primary expression begins with. -/
def startsPrimary : TokenKind → Bool
  | .string | .number | .trueWord | .falseWord | .identifier => true
  | .doWord | .loopWord | .leftParen => true
  | _ => false

/-- The kinds of tokens that an operand begins with. -/
def startsOperand (k : TokenKind) : Bool := startsPrimary k || (sign? k).isSome

/-- Whether a phrase may begin with a token of the given kind. -/
def begins : Phrase → TokenKind → Bool
  | statement, k => k == .varWord || startsOperand k
  | expression, k => startsOperand k
  | layer _, k => startsOperand k
  | operand, k => startsOperand k
  | application, k => startsPrimary k
  | primary, k => startsPrimary k
  | block, k => k == .leftBrace

theorem startsPrimary_of_literal {t : Token} {v : Value} (h : literal? t = some v) :
    startsPrimary t.kind = true := by
  simp only [literal?] at h
  split at h
  case h_5 => exact absurd h (by simp)
  all_goals simp only [startsPrimary, *]

/-- The phrases that a layer joins begin like those of the layer. -/
theorem begins_tighter (l : Layer) : l.tighter.begins = startsOperand := by
  cases l <;> rfl

end Phrase

namespace Phrase.Derives

variable {d d' : Nat} {x : Phrase} {ts : List Token} {T : Tree}

/-- A phrase has a first token, of one of the kinds that such phrases begin with. -/
theorem begins (h : Derives d x ts T) : ∃ t rest, ts = t :: rest ∧ x.begins t.kind = true := by
  induction h with
  | declaration ho => exact ⟨_, _, rfl, by rw [ho]; rfl⟩
  | bareDeclaration ho => exact ⟨_, _, rfl, by rw [ho]; rfl⟩
  | evaluation _ ih =>
    obtain ⟨t, rest, rfl, ht⟩ := ih
    exact ⟨t, rest, rfl, (Bool.or_eq_true _ _).mpr (.inr ht)⟩
  | assignment hn => exact ⟨_, _, rfl, by rw [hn.1]; rfl⟩
  | operation _ ih => exact ih
  | tighter _ ih =>
    obtain ⟨t, rest, rfl, ht⟩ := ih
    exact ⟨t, rest, rfl, by rwa [begins_tighter] at ht⟩
  | binary _ _ _ ih =>
    obtain ⟨t, rest, rfl, ht⟩ := ih
    exact ⟨t, _, rfl, ht⟩
  | unary ho =>
    refine ⟨_, _, rfl, ?_⟩
    simp only [Phrase.begins, startsOperand, ho, Option.isSome_some, Bool.or_true]
  | unsigned _ ih =>
    obtain ⟨t, rest, rfl, ht⟩ := ih
    exact ⟨t, rest, rfl, (Bool.or_eq_true _ _).mpr (.inl ht)⟩
  | uncalled _ ih => exact ih
  | call _ _ _ _ _ ih =>
    obtain ⟨t, rest, rfl, ht⟩ := ih
    exact ⟨t, _, rfl, ht⟩
  | literal h => exact ⟨_, _, rfl, startsPrimary_of_literal h⟩
  | reference h => exact ⟨_, _, rfl, by rw [h.1]; rfl⟩
  | doBlock hw => exact ⟨_, _, rfl, by rw [hw]; rfl⟩
  | loop hw => exact ⟨_, _, rfl, by rw [hw]; rfl⟩
  | parenthesized ho => exact ⟨_, _, rfl, by rw [ho]; rfl⟩
  | block ho => exact ⟨_, _, rfl, by rw [ho]; rfl⟩

/-- The span of a tree goes from the first of its tokens to the last. -/
theorem covers (h : Derives d x ts T) (hts : Legible ts) : Covers ts T.span := by
  induction h with
  | @declaration d opener name equal s v V _ _ _ _ ih =>
    have hv := ih hts.tail.tail.tail
    exact (Covers.single opener).union [name, equal] hv hts
  | @bareDeclaration d opener name =>
    exact (Covers.single opener).union [] (Covers.single name) hts
  | evaluation _ ih => exact ih hts
  | @assignment d name equal s v V _ _ _ ih =>
    have hv := ih hts.tail.tail
    exact (Covers.single name).union [equal] hv hts
  | operation _ ih => exact ih hts
  | tighter _ ih => exact ih hts
  | @binary d l op o a A b B _ _ _ iha ihb =>
    exact (iha (hts.left _)).union [op] (ihb (hts.right a).tail) hts
  | @unary d op o a A _ _ ih =>
    exact (Covers.single op).union [] (ih hts.tail) hts
  | unsigned _ ih => exact ih hts
  | uncalled _ ih => exact ih hts
  | @call d f F opener ts parts closer _ _ _ _ _ ih _ =>
    exact (ih (hts.left _)).union (opener :: ts) (Covers.single closer) hts
  | literal _ => exact Covers.single _
  | reference _ => exact Covers.single _
  | @doBlock d word b B _ _ ih =>
    exact (Covers.single word).union [] (ih hts.tail) hts
  | @loop d word b B _ _ ih =>
    exact (Covers.single word).union [] (ih hts.tail) hts
  | @parenthesized d opener ts T closer _ _ _ _ =>
    rw [Tree.span_withSpan]
    exact (Covers.single opener).union ts (Covers.single closer) hts
  | @block d opener ends ts parts es t closer _ _ _ _ _ _ =>
    have hc : Covers [closer] closer.span := Covers.single closer
    have h := (Covers.single opener).union (ends ++ ts) hc
    rw [List.append_assoc] at h
    exact h hts

/-- What stands in parentheses begins behind them and ends before them. -/
theorem enclosed {opener closer : Token} (h : Derives d x ts T)
    (hts : Legible (opener :: (ts ++ [closer]))) (ho : opener.kind = .leftParen) :
    (opener.span.union closer.span).start < T.span.start ∧
      T.span.stop ≤ (opener.span.union closer.span).stop := by
  have hcovers := h.covers (hts.tail.left [closer])
  have hopen : opener.span.stop ≤ T.span.start :=
    hcovers.stop_le_start (Legible.left [closer] hts)
  have hclose : T.span.stop ≤ closer.span.start := hcovers.stop_le_start_of_append hts.tail
  have hopener := hts.openers opener (List.mem_cons_self ..) ho
  simp only [Span.length, Span.start_union, Span.stop_union] at *
  have := closer.span.start_le
  omega

/-- A name covers more of the text than itself, unless it is read from a single token. -/
theorem reference_cases (h : Derives d x ts T) (hts : Legible ts) {s : Span} {name : String}
    (hT : T = .reference s name) :
    (∃ t, ts = [t] ∧ t.IsName name ∧ s = t.span) ∨ name.length < s.length := by
  induction h generalizing s with
  | evaluation _ ih => exact ih hts hT
  | operation _ ih => exact ih hts hT
  | tighter _ ih => exact ih hts hT
  | unsigned _ ih => exact ih hts hT
  | uncalled _ ih => exact ih hts hT
  | @reference d t name' hn =>
    obtain ⟨rfl, rfl⟩ : t.span = s ∧ name' = name := by
      simpa only [Tree.reference.injEq] using hT
    exact .inl ⟨t, rfl, hn, rfl⟩
  | @parenthesized d opener ts T closer ho h _ ih =>
    have hts' := hts.tail.left [closer]
    have ⟨hstart, hstop⟩ := h.enclosed hts ho
    -- The name inside is at most as long as its own span, which lies between the parentheses.
    obtain ⟨s', rfl, rfl⟩ :
        ∃ s', T = .reference s' name ∧ s = opener.span.union closer.span := by
      cases T <;> simp_all [Tree.withSpan]
    have hinner : name.length ≤ s'.length := by
      rcases ih hts' rfl with ⟨t, rfl, hn, rfl⟩ | hlt
      · exact Nat.le_of_eq (hts'.length_eq_of_name (List.mem_singleton_self t) hn.1 hn.2).symm
      · exact Nat.le_of_lt hlt
    have := s'.start_le
    simp only [Span.length, Tree.span] at *
    omega
  | _ => cases hT

/-- A tree is a bare name only if it was read from one token, which says this name. -/
theorem bareName (h : Derives d x ts T) (hts : Legible ts) {name : String}
    (hT : T.bareName? = some name) : ∃ t, ts = [t] ∧ t.IsName name ∧ T = .reference t.span name := by
  unfold Tree.bareName? at hT
  split at hT
  · next s n =>
    split at hT
    · next hlength =>
      obtain rfl : n = name := by simpa only [Option.some.injEq] using hT
      rcases h.reference_cases hts rfl with ⟨t, rfl, hn, rfl⟩ | hlt
      · exact ⟨t, rfl, hn, rfl⟩
      · exact absurd hlength (Nat.ne_of_gt hlt)
    · exact absurd hT (by simp)
  · exact absurd hT (by simp)

/-- A derivation may be nested less deeply than the bound. -/
theorem mono (h : Derives d x ts T) (hd : d ≤ d') : Derives d' x ts T := by
  have less : ∀ (k : Nat) {d d' : Nat}, d + k ≤ d' → ∃ e, d' = e + k ∧ d ≤ e := fun k {_ d'} hd =>
    ⟨d' - k, by omega, by omega⟩
  induction h generalizing d' with
  | declaration ho hn he _ ih =>
    obtain ⟨e, rfl, hle⟩ := less 2 hd
    exact .declaration ho hn he (ih hle)
  | bareDeclaration ho hn =>
    obtain ⟨e, rfl, _⟩ := less 2 hd
    exact .bareDeclaration ho hn
  | evaluation _ ih =>
    obtain ⟨e, rfl, hle⟩ := less 1 hd
    exact .evaluation (ih hle)
  | assignment hn he _ ih =>
    obtain ⟨e, rfl, hle⟩ := less 1 hd
    exact .assignment hn he (ih hle)
  | operation _ ih => exact .operation (ih hd)
  | tighter _ ih => exact .tighter (ih hd)
  | binary _ ho _ iha ihb =>
    obtain ⟨e, rfl, hle⟩ := less 1 hd
    exact .binary (iha hd) ho (ihb hle)
  | unary ho _ ih =>
    obtain ⟨e, rfl, hle⟩ := less 1 hd
    exact .unary ho (ih hle)
  | unsigned _ ih => exact .unsigned (ih hd)
  | uncalled _ ih => exact .uncalled (ih hd)
  | call _ ho hts _ hc ihf ihparts =>
    obtain ⟨e, rfl, hle⟩ := less 3 hd
    exact .call (ihf hd) ho hts (fun p hp => ihparts p hp hle) hc
  | literal h =>
    obtain ⟨e, rfl, _⟩ := less 3 hd
    exact .literal h
  | reference h =>
    obtain ⟨e, rfl, _⟩ := less 3 hd
    exact .reference h
  | doBlock hw _ ih =>
    obtain ⟨e, rfl, hle⟩ := less 3 hd
    exact .doBlock hw (ih hle)
  | loop hw _ ih =>
    obtain ⟨e, rfl, hle⟩ := less 3 hd
    exact .loop hw (ih hle)
  | parenthesized ho _ hc ih =>
    obtain ⟨e, rfl, hle⟩ := less 4 hd
    exact .parenthesized ho (ih hle) hc
  | block ho hends hts _ hc ih =>
    obtain ⟨e, rfl, hle⟩ := less 1 hd
    exact .block ho hends hts (fun p hp => ih p hp hle) hc

/-- An expression goes at least as deep as a literal. -/
theorem room (h : Derives d x ts T) (hstatement : x ≠ .statement) (hblock : x ≠ .block) : 3 ≤ d := by
  induction h with
  | declaration | bareDeclaration | evaluation => exact absurd rfl hstatement
  | block => exact absurd rfl hblock
  | assignment _ _ _ ih => exact Nat.le_succ_of_le (ih nofun nofun)
  | operation _ ih => exact ih nofun nofun
  | @tighter _ l _ _ _ ih => cases l <;> exact ih nofun nofun
  | binary _ _ _ iha => exact iha nofun nofun
  | unary _ _ ih => exact Nat.le_succ_of_le (ih nofun nofun)
  | unsigned _ ih => exact ih nofun nofun
  | uncalled _ ih => exact ih nofun nofun
  | call => exact Nat.le_add_left 3 _
  | literal => exact Nat.le_add_left 3 _
  | reference => exact Nat.le_add_left 3 _
  | doBlock => exact Nat.le_add_left 3 _
  | loop => exact Nat.le_add_left 3 _
  | parenthesized _ _ _ ih => exact Nat.le_add_right_of_le (ih nofun nofun)

end Phrase.Derives

end Curly
