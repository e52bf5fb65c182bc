import Curly.Proofs.UpTo
import Curly.Tree.Unit

/-!
# The depth of reading

With room for fewer calls the rules read what they read with room for more, unless they run out of it. The
same holds of the bound on repetitions.

## Main statements

* `rulesAt_upTo`: the rules with less room and fewer repetitions agree with those with more.
* `TextUnit.read_upTo`: the same for whole texts.
-/

namespace Curly

open Cursor

/-- The setting `S'` differs from `S` only in that it allows for more repetitions. -/
structure Setting.Within (S S' : Setting) : Prop where
  table : S.table = S'.table
  rounds : S.rounds ≤ S'.rounds

theorem Setting.Within.refl (S : Setting) : S.Within S := ⟨rfl, Nat.le_refl _⟩

/-- The rules `r` read what the rules `r'` read, or run out of room. -/
structure Rules.UpTo (r r' : Rules) : Prop where
  statement : Curly.UpTo (· = .tooDeep) r.statement r'.statement
  declaration : Curly.UpTo (· = .tooDeep) r.declaration r'.declaration
  block : Curly.UpTo (· = .tooDeep) r.block r'.block
  expression : ∀ p, Curly.UpTo (· = .tooDeep) (r.expression p) (r'.expression p)
  operand : Curly.UpTo (· = .tooDeep) r.operand r'.operand
  primary : Curly.UpTo (· = .tooDeep) r.primary r'.primary
  parenthesized : Curly.UpTo (· = .tooDeep) r.parenthesized r'.parenthesized
  call : ∀ callee, Curly.UpTo (· = .tooDeep) (r.call callee) (r'.call callee)

theorem Rules.UpTo.bottom (r : Rules) : Rules.bottom.UpTo r where
  statement := .fault rfl
  declaration := .fault rfl
  block := .fault rfl
  expression := fun _ => .fault rfl
  operand := .fault rfl
  primary := .fault rfl
  parenthesized := .fault rfl
  call := fun _ => .fault rfl

theorem repeatUpTo_upTo {α β : Type} {step step' : α → ReadM (α ⊕ β)}
    (h : ∀ a, UpTo (· = .tooDeep) (step a) (step' a)) {rounds rounds' : Nat}
    (hrounds : rounds ≤ rounds') (a : α) :
    UpTo (· = .tooDeep) (repeatUpTo step rounds a) (repeatUpTo step' rounds' a) := by
  induction rounds generalizing rounds' a with
  | zero => exact .fault rfl
  | succ rounds ih =>
    obtain ⟨rounds', rfl⟩ : ∃ k, rounds' = k + 1 := ⟨rounds' - 1, by omega⟩
    refine (h a).bind fun r => ?_
    cases r with
    | inl a' => exact ih (Nat.le_of_succ_le_succ hrounds) a'
    | inr b => exact .refl _

namespace Rule

variable {r r' : Rules} {S S' : Setting}

theorem skipEndsOfLine_upTo (hS : S.Within S') :
    UpTo (· = .tooDeep) (skipEndsOfLine S) (skipEndsOfLine S') :=
  repeatUpTo_upTo (fun _ => .refl _) hS.rounds _

theorem declaration_upTo (h : r.UpTo r') :
    UpTo (· = .tooDeep) (declaration r) (declaration r') := by
  refine .after _ fun opener => .after _ fun name => .before (.after _ fun t => ?_) _
  split
  · exact .after _ fun _ => .before (h.expression 0) _
  all_goals exact .refl _

theorem statement_upTo (h : r.UpTo r') : UpTo (· = .tooDeep) (statement r) (statement r') := by
  refine .after _ fun t => ?_
  split
  · exact h.declaration
  · exact .refl _
  · exact h.expression 0

theorem blockStep_upTo (hS : S.Within S') (h : r.UpTo r') (opener : Token) (done : List Tree) :
    UpTo (· = .tooDeep) (blockStep S r opener done) (blockStep S' r' opener done) := by
  refine .after _ fun t => ?_
  split
  · exact .refl _
  · exact .refl _
  · refine h.statement.bind fun s => .after _ fun t => ?_
    split
    · exact .before (skipEndsOfLine_upTo hS) _
    all_goals exact .refl _

theorem block_upTo (hS : S.Within S') (h : r.UpTo r') :
    UpTo (· = .tooDeep) (block S r) (block S' r') := by
  refine .after _ fun opener => (skipEndsOfLine_upTo hS).bind fun _ => .before ?_ _
  exact repeatUpTo_upTo (blockStep_upTo hS h opener) hS.rounds _

theorem parenthesized_upTo (h : r.UpTo r') :
    UpTo (· = .tooDeep) (parenthesized r) (parenthesized r') :=
  .after _ fun _ => .before (h.expression 0) _

theorem call_upTo (hS : S.Within S') (h : r.UpTo r') (callee : Option Tree) :
    UpTo (· = .tooDeep) (call S r callee) (call S' r' callee) := by
  refine .before (.after _ fun opener => .before (.after _ fun b => ?_) _) _
  split
  · exact .refl _
  · exact repeatUpTo_upTo (fun done => .before (h.expression 0) _) hS.rounds _

theorem primary_upTo (h : r.UpTo r') : UpTo (· = .tooDeep) (primary r) (primary r') := by
  refine .after _ fun t => ?_
  split
  case h_6 | h_7 => exact .after _ fun _ => .before h.block _
  case h_8 => exact h.parenthesized
  all_goals exact .refl _

theorem operand_upTo (hS : S.Within S') (h : r.UpTo r') :
    UpTo (· = .tooDeep) (operand S r) (operand S' r') := by
  refine .after _ fun t => ?_
  rw [hS.table]
  split
  · exact .after _ fun _ => .before h.operand _
  · refine h.primary.bind fun first => repeatUpTo_upTo (fun callee => ?_) hS.rounds _
    refine .after _ fun b => ?_
    split
    · exact .before (h.call _) _
    · exact .refl _

theorem climbStep_upTo (hS : S.Within S') (h : r.UpTo r') (p : Int) (left : Tree) :
    UpTo (· = .tooDeep) (climbStep S r p left) (climbStep S' r' p left) := by
  refine .after _ fun t => ?_
  rw [hS.table]
  split
  · split
    · exact .refl _
    · exact .before (.after _ fun _ => .after _ fun _ => .before (h.expression 0) _) _
  · split
    · exact .refl _
    · split
      · exact .refl _
      · exact .before (.after _ fun _ => .before (h.expression _) _) _

theorem expression_upTo (hS : S.Within S') (h : r.UpTo r') (p : Int) :
    UpTo (· = .tooDeep) (expression S r p) (expression S' r' p) :=
  h.operand.bind fun _ => repeatUpTo_upTo (climbStep_upTo hS h p) hS.rounds _

end Rule

/-- With room for fewer calls the rules read what they read with room for more, or run out of it. -/
theorem rulesAt_upTo {S S' : Setting} (hS : S.Within S') {d d' : Nat} (h : d ≤ d') :
    (rulesAt S d).UpTo (rulesAt S' d') := by
  induction d generalizing d' with
  | zero => exact .bottom _
  | succ d ih =>
    obtain ⟨d', rfl⟩ : ∃ e, d' = e + 1 := ⟨d' - 1, by omega⟩
    have hbelow := ih (Nat.le_of_succ_le_succ h)
    exact {
      statement := Rule.statement_upTo hbelow
      declaration := Rule.declaration_upTo hbelow
      block := Rule.block_upTo hS hbelow
      expression := Rule.expression_upTo hS hbelow
      operand := Rule.operand_upTo hS hbelow
      primary := Rule.primary_upTo hbelow
      parenthesized := Rule.parenthesized_upTo hbelow
      call := Rule.call_upTo hS hbelow }

namespace TextUnit

open Rule

variable {S S' : Setting} {r r' : Rules}

theorem readProgram_upTo (hS : S.Within S') (h : r.UpTo r') :
    UpTo (· = .tooDeep) (readProgram S r) (readProgram S' r') := by
  refine (skipEndsOfLine_upTo hS).bind fun _ => .before ?_ _
  refine repeatUpTo_upTo (fun done => .after _ fun t => ?_) hS.rounds _
  split
  case h_3 =>
    exact h.declaration.bind fun _ => .after _ fun _ => .before (skipEndsOfLine_upTo hS) _
  all_goals exact .refl _

theorem readSingle_upTo (hS : S.Within S') (h : r.UpTo r') :
    UpTo (· = .tooDeep) (readSingle S r) (readSingle S' r') := by
  refine (skipEndsOfLine_upTo hS).bind fun _ => h.statement.bind fun _ => ?_
  exact .before (skipEndsOfLine_upTo hS) _

theorem readStatements_upTo (hS : S.Within S') (h : r.UpTo r') :
    UpTo (· = .tooDeep) (readStatements S r) (readStatements S' r') := by
  refine (skipEndsOfLine_upTo hS).bind fun _ => .before ?_ _
  refine repeatUpTo_upTo (fun done => .after _ fun b => ?_) hS.rounds _
  split
  · exact .refl _
  · refine h.statement.bind fun _ => .after _ fun b => ?_
    split
    · exact .refl _
    · exact .after _ fun _ => .before (skipEndsOfLine_upTo hS) _

theorem read_upTo (hS : S.Within S') (h : r.UpTo r') (u : TextUnit) :
    UpTo (· = .tooDeep) (u.read S r) (u.read S' r') := by
  cases u with
  | program => exact readProgram_upTo hS h
  | single => exact readSingle_upTo hS h
  | statements => exact readStatements_upTo hS h

end TextUnit

end Curly
