import Curly.Proofs.Grammar.Basic

/-!
# Brackets

Parentheses and braces match in every phrase of the grammar.

## Main definitions

* `Token.openAfter`: the brackets that are open behind some tokens.
* `Balanced`: tokens that close all brackets that they open, and no others.

## Main statements

* `Phrase.Derives.balanced`: phrases are balanced.
-/

namespace Curly

/-- The kinds of tokens that open or close something. -/
def TokenKind.isBracket : TokenKind → Bool
  | .leftParen | .rightParen | .leftBrace | .rightBrace => true
  | _ => false

namespace Token

/-- The open brackets behind one more token, the innermost first. -/
def bracket (stack : List Token) (t : Token) : List Token :=
  match t.kind with
  | .leftParen | .leftBrace => t :: stack
  | .rightParen | .rightBrace => stack.tail
  | _ => stack

/-- The brackets that are open behind some tokens, the innermost first, if those in `stack` are open in
front of them. -/
def openAfter (stack ts : List Token) : List Token := ts.foldl bracket stack

variable {stack ts us : List Token} {t : Token}

theorem openAfter_append (stack ts us : List Token) :
    openAfter stack (ts ++ us) = openAfter (openAfter stack ts) us := List.foldl_append

theorem openAfter_cons (stack : List Token) (t : Token) (ts : List Token) :
    openAfter stack (t :: ts) = openAfter (bracket stack t) ts := rfl

theorem bracket_of_other (h : t.kind.isBracket = false) : bracket stack t = stack := by
  unfold bracket
  split
  case h_5 => rfl
  all_goals
    next hk =>
    rw [hk] at h
    cases h

theorem bracket_of_opener (h : t.kind = .leftParen ∨ t.kind = .leftBrace) :
    bracket stack t = t :: stack := by
  unfold bracket
  rcases h with h | h <;> rw [h]

theorem bracket_of_closer (h : t.kind = .rightParen ∨ t.kind = .rightBrace) :
    bracket stack t = stack.tail := by
  unfold bracket
  rcases h with h | h <;> rw [h]

/-- What is open was opened. -/
theorem mem_of_openAfter (h : t ∈ openAfter stack ts) : t ∈ stack ∨ t ∈ ts := by
  induction ts generalizing stack with
  | nil => exact .inl h
  | cons u ts ih =>
    rcases ih h with h | h
    · unfold bracket at h
      split at h
      · exact (List.mem_cons.1 h).elim (fun h => .inr (h ▸ List.mem_cons_self ..)) .inl
      · exact (List.mem_cons.1 h).elim (fun h => .inr (h ▸ List.mem_cons_self ..)) .inl
      · exact .inl (List.mem_of_mem_tail h)
      · exact .inl (List.mem_of_mem_tail h)
      · exact .inl h
    · exact .inr (List.mem_cons_of_mem _ h)

end Token

open Token

/-- The tokens close all brackets that they open, and no others. -/
def Balanced (ts : List Token) : Prop := ∀ stack, openAfter stack ts = stack

namespace Balanced

variable {ts us : List Token} {t opener closer : Token}

theorem nil : Balanced [] := fun _ => rfl

theorem append (h : Balanced ts) (h' : Balanced us) : Balanced (ts ++ us) := by
  intro stack
  rw [openAfter_append, h, h']

theorem cons (ht : t.kind.isBracket = false) (h : Balanced ts) : Balanced (t :: ts) := by
  intro stack
  rw [openAfter_cons, bracket_of_other ht, h]

theorem single (ht : t.kind.isBracket = false) : Balanced [t] := cons ht nil

/-- Balanced tokens between brackets are balanced. -/
theorem enclosed (ho : opener.kind = .leftParen ∨ opener.kind = .leftBrace) (h : Balanced ts)
    (hc : closer.kind = .rightParen ∨ closer.kind = .rightBrace) :
    Balanced (opener :: (ts ++ [closer])) := by
  intro stack
  rw [openAfter_cons, bracket_of_opener ho, openAfter_append, h, openAfter_cons,
    bracket_of_closer hc]
  rfl

/-- A bracket is open behind balanced tokens that follow it. -/
theorem openAfter_opener (ho : opener.kind = .leftParen ∨ opener.kind = .leftBrace)
    (h : Balanced ts) (stack : List Token) : openAfter stack (opener :: ts) = opener :: stack := by
  rw [openAfter_cons, bracket_of_opener ho, h]

end Balanced

theorem EndsOfLine.balanced {ts : List Token} (h : EndsOfLine ts) : Balanced ts := by
  induction ts with
  | nil => exact .nil
  | cons t ts ih =>
    have ht : t.kind.isBracket = false := by
      rw [h t (List.mem_cons_self ..)]
      rfl
    exact .cons ht (ih fun u hu => h u (List.mem_cons_of_mem _ hu))

theorem Listing.balanced {ts : List Token} {parts : List Part} {es : List Tree} {t : Option Tree}
    (h : Listing ts parts es t) (hparts : ∀ p ∈ parts, Balanced p.1) : Balanced ts := by
  induction h with
  | nil => exact .nil
  | tail => exact hparts _ (List.mem_singleton_self _)
  | statement _ hends _ ih =>
    exact (hparts _ (List.mem_cons_self ..)).append
      (hends.balanced.append (ih fun p hp => hparts p (List.mem_cons_of_mem _ hp)))

theorem Arguments.balanced {ts : List Token} {parts : List Part} (h : Arguments ts parts)
    (hparts : ∀ p ∈ parts, Balanced p.1) : Balanced ts := by
  induction h with
  | nil => exact .nil
  | last => exact hparts _ (List.mem_singleton_self _)
  | cons hcomma _ ih =>
    have hcomma : TokenKind.isBracket _ = false := congrArg _ hcomma
    exact (hparts _ (List.mem_cons_self ..)).append
      (.cons hcomma (ih fun p hp => hparts p (List.mem_cons_of_mem _ hp)))

namespace Phrase

theorem isBracket_of_sign {k : TokenKind} {o : UnaryOperator} (h : sign? k = some o) :
    k.isBracket = false := by
  cases k <;> first | rfl | cases h

theorem isBracket_of_literal {t : Token} {v : Value} (h : literal? t = some v) :
    t.kind.isBracket = false := by
  simp only [literal?] at h
  split at h
  case h_5 => cases h
  all_goals simp only [TokenKind.isBracket, *]

theorem isBracket_of_operator {l : Layer} {k : TokenKind} {o : BinaryOperator}
    (h : l.operator? k = some o) : k.isBracket = false := by
  cases k <;> first | rfl | (cases l <;> cases h)

/-- **Phrases are balanced**: their parentheses and braces match. -/
theorem Derives.balanced {d : Nat} {x : Phrase} {ts : List Token} {T : Tree}
    (h : Derives d x ts T) : Balanced ts := by
  have kind : ∀ {t : Token} {k : TokenKind}, t.kind = k → k.isBracket = false →
      t.kind.isBracket = false := fun ht hk => by rw [ht, hk]
  induction h with
  | declaration ho hn he _ ih =>
    exact .cons (kind ho rfl) (.cons (kind hn.1 rfl) (.cons (kind he rfl) ih))
  | bareDeclaration ho hn => exact .cons (kind ho rfl) (.single (kind hn.1 rfl))
  | evaluation _ ih => exact ih
  | assignment hn he _ ih => exact .cons (kind hn.1 rfl) (.cons (kind he rfl) ih)
  | operation _ ih => exact ih
  | tighter _ ih => exact ih
  | binary _ ho _ iha ihb => exact iha.append (.cons (isBracket_of_operator ho) ihb)
  | unary ho _ ih => exact .cons (isBracket_of_sign ho) ih
  | unsigned _ ih => exact ih
  | uncalled _ ih => exact ih
  | call _ ho hts _ hc ihf ihparts =>
    exact ihf.append (.enclosed (.inl ho) (hts.balanced ihparts) (.inl hc))
  | literal h => exact .single (isBracket_of_literal h)
  | reference h => exact .single (kind h.1 rfl)
  | doBlock hw _ ih => exact .cons (kind hw rfl) ih
  | loop hw _ ih => exact .cons (kind hw rfl) ih
  | parenthesized ho _ hc ih => exact .enclosed (.inl ho) ih (.inl hc)
  | block ho hends hts _ hc ih =>
    rw [← List.append_assoc]
    exact .enclosed (.inr ho) (hends.balanced.append (hts.balanced ih)) (.inr hc)

end Phrase

end Curly
