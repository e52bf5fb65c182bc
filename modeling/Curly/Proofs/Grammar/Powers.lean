import Curly.Proofs.Grammar.Basic

/-!
# Layers and binding powers

The layers of the grammar are the binding powers of the table of the language.

## Main definitions

* `Layer.power`: the binding power of the operators of a layer.
* `Layer.ofKind?`: the layer that a token kind has an operator in.
* `Phrase.level`: the phrases whose operators have at least a given power.
* `Phrase.above`: the phrases whose operators bind stronger than a given power.
* `JoinsAtMost`, `Stops`: what may follow a phrase of a level, and what ends an expression.
-/

namespace Curly

namespace Layer

/-- The binding power of the operators of a layer. -/
def power : Layer → Nat
  | disjunction => 1
  | conjunction => 2
  | equality => 3
  | comparison => 4
  | sum => 5
  | product => 6

/-- The layer that a token kind has an operator in. -/
def ofKind? : TokenKind → Option Layer
  | .orWord | .pipe => some disjunction
  | .andWord | .ampersand => some conjunction
  | .doubleEqual | .bangEqual => some equality
  | .lesser | .lesserEqual | .greater | .greaterEqual => some comparison
  | .plus | .minus => some sum
  | .star | .slash | .percent => some product
  | _ => none

theorem power_pos (l : Layer) : 0 < l.power := by
  cases l <;> decide

theorem power_le (l : Layer) : l.power ≤ 6 := by
  cases l <;> decide

/-- The table of the language has a binding power for the operators of the layers, and for no other
kind. -/
theorem bindingPower?_standard (k : TokenKind) :
    Table.standard.bindingPower? k = (ofKind? k).map power := by
  cases k <;> decide

theorem operator?_eq_some_iff {l : Layer} {k : TokenKind} {o : BinaryOperator} :
    l.operator? k = some o ↔ ofKind? k = some l ∧ BinaryOperator.ofKind? k = some o := by
  cases l <;> cases k <;> simp [operator?, ofKind?, BinaryOperator.ofKind?]

/-- A token kind with an operator in some layer is an operator. -/
theorem operator?_of_ofKind? {l : Layer} {k : TokenKind} (h : ofKind? k = some l) :
    ∃ o, l.operator? k = some o ∧ BinaryOperator.ofKind? k = some o := by
  cases k <;> cases h <;> exact ⟨_, rfl, rfl⟩

theorem ne_endOfInput_of_ofKind? {l : Layer} {k : TokenKind} (h : ofKind? k = some l) :
    k ≠ .endOfInput := by
  rintro rfl
  cases h

theorem bindingPower?_of_operator? {l : Layer} {k : TokenKind} {o : BinaryOperator}
    (h : l.operator? k = some o) : Table.standard.bindingPower? k = some l.power := by
  rw [bindingPower?_standard, (operator?_eq_some_iff.1 h).1, Option.map_some]

end Layer

namespace Phrase

/-- The operators in front of operands are those of the language, all of which the table names. -/
theorem unary?_standard (k : TokenKind) :
    Table.standard.unary? k = (sign? k).map UnaryOperator.name := by
  cases k <;> decide

theorem ne_endOfInput_of_sign {k : TokenKind} {o : UnaryOperator} (h : sign? k = some o) :
    k ≠ .endOfInput := by
  rintro rfl
  cases h

/-- The phrases whose operators have at least the given power. -/
def level : Nat → Phrase
  | 1 => layer .disjunction
  | 2 => layer .conjunction
  | 3 => layer .equality
  | 4 => layer .comparison
  | 5 => layer .sum
  | 6 => layer .product
  | _ => operand

/-- The phrases whose operators bind stronger than the given power. An assignment binds weaker than all
operators. -/
def above : Nat → Phrase
  | 0 => expression
  | p + 1 => level (p + 2)

theorem level_power (l : Layer) : level l.power = layer l := by
  cases l <;> rfl

theorem above_power (l : Layer) : above l.power = l.tighter := by
  cases l <;> rfl

/-- Phrases of a tighter level are phrases of a looser one. -/
theorem Derives.level_of_le {d m k : Nat} {ts : List Token} {T : Tree}
    (h : Derives d (level m) ts T) (hk : 0 < k) (hkm : k ≤ m) : Derives d (level k) ts T := by
  have step : ∀ n, Derives d (level (n + 2)) ts T → Derives d (level (n + 1)) ts T
    | 0, h => .tighter h
    | 1, h => .tighter h
    | 2, h => .tighter h
    | 3, h => .tighter h
    | 4, h => .tighter h
    | 5, h => .tighter h
    | n + 6, h => h
  induction m with
  | zero => omega
  | succ m ih =>
    rcases Nat.eq_or_lt_of_le hkm with rfl | hlt
    · exact h
    · obtain ⟨n, rfl⟩ : ∃ n, m = n + 1 := ⟨m - 1, by omega⟩
      exact ih (step n h) (by omega)

/-- Phrases of a level are phrases above the power just below the level. -/
theorem Derives.above_of_level {d m p : Nat} {ts : List Token} {T : Tree}
    (h : Derives d (level m) ts T) (hp : p < m) : Derives d (above p) ts T := by
  cases p with
  | zero => exact .operation (h.level_of_le Nat.one_pos hp)
  | succ p => exact h.level_of_le (Nat.succ_pos _) hp

end Phrase

/-- The next token neither calls what stands before it nor joins it by an operator of a power above
`p`. -/
def JoinsAtMost (p : Nat) : List Token → Prop
  | [] => False
  | t :: _ => t.kind ≠ .leftParen ∧ ∀ q, Table.standard.bindingPower? t.kind = some q → q ≤ p

/-- The next token ends an expression whose operators bind stronger than `p`. -/
def Stops (p : Nat) : List Token → Prop
  | [] => False
  | t :: rest => JoinsAtMost p (t :: rest) ∧ (t.kind = .equal → 0 < p)

theorem JoinsAtMost.mono {p q : Nat} {ts : List Token} (h : JoinsAtMost p ts) (hpq : p ≤ q) :
    JoinsAtMost q ts := by
  cases ts with
  | nil => exact h
  | cons t rest => exact ⟨h.1, fun r hr => Nat.le_trans (h.2 r hr) hpq⟩

/-- No operator has a power above that of the tightest layer. -/
theorem joinsAtMost_of_ne {t : Token} {rest : List Token} (h : t.kind ≠ .leftParen) :
    JoinsAtMost 6 (t :: rest) := by
  refine ⟨h, fun q hq => ?_⟩
  rw [Layer.bindingPower?_standard, Option.map_eq_some_iff] at hq
  obtain ⟨l, _, rfl⟩ := hq
  exact l.power_le

theorem Stops.joinsAtMost {p : Nat} {ts : List Token} (h : Stops p ts) : JoinsAtMost p ts := by
  cases ts with
  | nil => exact h
  | cons t rest => exact h.1

/-- Above the power of a layer, everything that joins less strongly ends an expression. -/
theorem JoinsAtMost.stops {l : Layer} {ts : List Token} (h : JoinsAtMost l.power ts) :
    Stops l.power ts := by
  cases ts with
  | nil => exact h
  | cons t rest => exact ⟨h, fun _ => l.power_pos⟩

/-- The kinds of tokens that no expression goes on with. -/
def TokenKind.isClosing : TokenKind → Bool
  | .endOfLine | .endOfInput | .rightBrace | .rightParen | .comma => true
  | _ => false

theorem Layer.ofKind?_of_isClosing {k : TokenKind} (h : k.isClosing = true) :
    Layer.ofKind? k = none := by
  cases k <;> first | rfl | exact absurd h (by decide)

theorem stops_of_isClosing {p : Nat} {t : Token} {rest : List Token}
    (h : t.kind.isClosing = true) : Stops p (t :: rest) := by
  refine ⟨⟨fun hk => ?_, fun q hq => ?_⟩, fun hk => ?_⟩
  · rw [hk] at h
    exact absurd h (by decide)
  · rw [Layer.bindingPower?_standard, Layer.ofKind?_of_isClosing h] at hq
    exact absurd hq (by simp)
  · rw [hk] at h
    exact absurd h (by decide)

end Curly
