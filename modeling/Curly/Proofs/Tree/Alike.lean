import Mathlib.Data.List.Forall2
import Curly.Proofs.Value.Alike
import Curly.Tree.Outline

/-!
# Trees that are shown alike

What is shown of a node, its heading, its span and what is below it, says which node it is, up to numbers
that are displayed alike.

## Main definitions

* `Tree.ShownAlike`: trees that are equal up to such numbers.
* `Tree.named?`: the name of a node.
* `Tree.Presentable`: nodes that can be told from what is shown of them.
* `Tree.caption`: the line of a node, without indentation.
* `Tree.BeginsWithLetter`: texts that begin with a letter.

## Main statements

* `Tree.ShownAlike.of_heading_eq`: nodes with the same heading, the same span and the same below them.
* `Tree.caption_inj`: a caption says the heading and the span.
-/

namespace Curly

/-- Two lists with something in the middle that comes up in neither of their ends. -/
theorem append_cons_inj_right {α : Type} {x : α} {front front' back back' : List α} (h : x ∉ back)
    (h' : x ∉ back') (heq : front ++ x :: back = front' ++ x :: back') : front = front' ∧ back = back' := by
  rcases List.append_eq_append_iff.1 heq with ⟨middle, rfl, hmiddle⟩ | ⟨middle, rfl, hmiddle⟩
  · cases middle with
    | nil =>
      cases hmiddle
      exact ⟨(List.append_nil _).symm, rfl⟩
    | cons y middle =>
      obtain ⟨-, rfl⟩ := List.cons.inj hmiddle
      exact absurd (List.mem_append_right _ (List.mem_cons_self ..)) h
  · cases middle with
    | nil =>
      cases hmiddle
      exact ⟨List.append_nil _, rfl⟩
    | cons y middle =>
      obtain ⟨-, rfl⟩ := List.cons.inj hmiddle
      exact absurd (List.mem_append_right _ (List.mem_cons_self ..)) h'

theorem not_mem_toString_nat {c : Char} (h : c.isDigit = false) (n : Nat) : c ∉ (toString n).toList := by
  intro hc
  rw [toList_toString_nat] at hc
  rw [Nat.isDigit_of_mem_toDigits (by decide) (by decide) hc] at h
  cases h

theorem toString_nat_injective {m n : Nat} (h : (toString m).toList = (toString n).toList) : m = n := by
  rw [toList_toString_nat, toList_toString_nat] at h
  rw [← Nat.ofDigitChars_ten_toDigits (n := m), h, Nat.ofDigitChars_ten_toDigits]

namespace Span

theorem toList_toString (s : Span) : (toString s).toList =
    ('[' :: (toString s.start).toList ++ ['.']) ++ '.' :: ((toString s.stop).toList ++ [')']) := by
  have h : toString s = "[" ++ toString s.start ++ ".." ++ toString s.stop ++ ")" := rfl
  rw [h]
  simp [String.toList_append]

/-- A written span is a single word. -/
theorem not_mem_toString (s : Span) : ' ' ∉ (toString s).toList ∧ '\n' ∉ (toString s).toList := by
  have hword : ∀ c : Char, c.isDigit = false → c ∉ ['[', '.', ')'] → c ∉ (toString s).toList := by
    intro c hdigit hmark
    have hstart := not_mem_toString_nat hdigit s.start
    have hstop := not_mem_toString_nat hdigit s.stop
    rw [toList_toString]
    simp_all only [List.mem_append, List.mem_cons, List.not_mem_nil, or_false, not_or, not_false_eq_true]
  exact ⟨hword _ rfl (by decide), hword _ rfl (by decide)⟩

theorem toString_injective {s t : Span} (h : (toString s).toList = (toString t).toList) : s = t := by
  have hdot : ∀ n : Nat, '.' ∉ (toString n).toList ++ [')'] := fun n hmem =>
    (List.mem_append.1 hmem).elim (not_mem_toString_nat rfl n) (by decide)
  rw [toList_toString, toList_toString] at h
  obtain ⟨hstart, hstop⟩ := append_cons_inj_right (hdot _) (hdot _) h
  ext
  · exact toString_nat_injective (List.append_cancel_right (List.cons.inj hstart).2)
  · exact toString_nat_injective (List.append_cancel_right hstop)

end Span

/-- Operators are found again by their spelling. -/
theorem BinaryOperator.ofSymbol?_symbol (op : BinaryOperator) : ofSymbol? op.symbol = some op := by
  cases op <;> decide

theorem BinaryOperator.symbol_injective {op op' : BinaryOperator} (h : op.symbol = op'.symbol) :
    op = op' := by
  have hfound := ofSymbol?_symbol op
  rw [h, ofSymbol?_symbol] at hfound
  exact (Option.some.inj hfound).symm

theorem UnaryOperator.symbol_injective {op op' : UnaryOperator} (h : op.symbol = op'.symbol) :
    op = op' := by
  cases op <;> cases op' <;> first | rfl | exact absurd h (by decide)

namespace Tree

/-- The trees are equal, except that numbers in them may differ where they are displayed alike. -/
inductive ShownAlike : Tree → Tree → Prop where
  | literal {s v v'} (hv : v.ShownAlike v') : ShownAlike (.literal s v) (.literal s v')
  | reference {s n} : ShownAlike (.reference s n) (.reference s n)
  | nameless {s} : ShownAlike (.nameless s) (.nameless s)
  | declaration {s n e e'} (he : ShownAlike e e') :
      ShownAlike (.declaration s n e) (.declaration s n e')
  | assignment {s n e e'} (he : ShownAlike e e') :
      ShownAlike (.assignment s n e) (.assignment s n e')
  | binary {s op a a' b b'} (ha : ShownAlike a a') (hb : ShownAlike b b') :
      ShownAlike (.binary s op a b) (.binary s op a' b')
  | unary {s op a a'} (ha : ShownAlike a a') : ShownAlike (.unary s op a) (.unary s op a')
  | call {s f f' args args'} (hf : ShownAlike f f') (hargs : List.Forall₂ ShownAlike args args') :
      ShownAlike (.call s f args) (.call s f' args')
  | block {s es es' t t'} (hes : List.Forall₂ ShownAlike es es') (ht : Option.Rel ShownAlike t t') :
      ShownAlike (.block s es t) (.block s es' t')
  | doBlock {s b b'} (hb : ShownAlike b b') : ShownAlike (.doBlock s b) (.doBlock s b')
  | loop {s b b'} (hb : ShownAlike b b') : ShownAlike (.loop s b) (.loop s b')
  | bare {s} : ShownAlike (.bare s) (.bare s)

/-- The name that a node reads, declares or assigns to. -/
def named? : Tree → Option String
  | reference _ n | declaration _ n _ | assignment _ n _ => some n
  | _ => none

/-- The node can be told from what is shown of it: a literal has a value of the language, and a name is
known and has no newline in it. -/
structure Presentable (t : Tree) : Prop where
  literal : ∀ s v, t = .literal s v → v.Native
  named : ∀ n, t.named? = some n → '\n' ∉ n.toList
  known : ∀ s, t ≠ .nameless s

/-- The line of a node, without indentation. -/
def caption (t : Tree) : String := t.heading ++ " " ++ toString t.span

/-- The text begins with a letter, which is a capital or not. -/
def BeginsWithLetter (capital : Bool) (text : String) : Prop :=
  ∃ c, text.toList.head? = some c ∧ c.isAlpha = true ∧ c.isUpper = capital

variable {t u : Tree}

/-- A heading is the kind of the node, with what else there is to say behind a blank. -/
theorem exists_heading_eq (t : Tree) : ∃ rest, t.heading.toList = t.kindName.toList ++ rest ∧
    (rest = [] ∨ rest.head? = some ' ') := by
  cases t with
  | literal _ v => exact ⟨' ' :: v.display.toList, by simp [heading, kindName], .inr rfl⟩
  | reference _ n => exact ⟨' ' :: n.toList, by simp [heading, kindName], .inr rfl⟩
  | nameless => exact ⟨' ' :: unknownName.toList, by simp [heading, kindName], .inr rfl⟩
  | declaration _ n => exact ⟨' ' :: n.toList, by simp [heading, kindName], .inr rfl⟩
  | assignment _ n => exact ⟨' ' :: n.toList, by simp [heading, kindName], .inr rfl⟩
  | binary _ op => exact ⟨' ' :: op.symbol.toList, by simp [heading, kindName], .inr rfl⟩
  | unary _ op => exact ⟨' ' :: op.symbol.toList, by simp [heading, kindName], .inr rfl⟩
  | call _ _ args =>
    exact ⟨' ' :: '(' :: ((toString args.length).toList ++ " args)".toList),
      by simp [heading, kindName], .inr rfl⟩
  | block _ _ tail =>
    cases tail with
    | none => exact ⟨[], by simp [heading, kindName], .inl rfl⟩
    | some => exact ⟨" (with tail)".toList, by simp [heading, kindName], .inr rfl⟩
  | doBlock => exact ⟨[], by simp [heading, kindName], .inl rfl⟩
  | loop => exact ⟨[], by simp [heading, kindName], .inl rfl⟩
  | bare => exact ⟨[], by simp [heading, kindName], .inl rfl⟩

/-- The kinds of nodes are words that begin with a capital. -/
theorem kindName_letters (t : Tree) : t.kindName.toList.all Char.isAlpha = true ∧
    t.kindName.toList.head?.any Char.isUpper = true := by
  cases t <;> (rw [kindName]; decide)

theorem kindName_eq_of_heading_eq (h : t.heading = u.heading) : t.kindName = u.kindName := by
  have htake : ∀ t : Tree, t.heading.toList.takeWhile Char.isAlpha = t.kindName.toList := by
    intro t
    obtain ⟨rest, heq, hrest⟩ := exists_heading_eq t
    have hnone : rest.takeWhile Char.isAlpha = [] := by
      cases rest with
      | nil => rfl
      | cons c rest =>
        rcases hrest with hrest | hrest
        · cases hrest
        · cases hrest
          rfl
    rw [heq, List.takeWhile_append_of_pos (List.all_eq_true.1 t.kindName_letters.1), hnone, List.append_nil]
  rw [← String.toList_inj, ← htake, h, htake]

/-- A caption begins with a capital. -/
theorem beginsWithLetter_caption (t : Tree) : BeginsWithLetter true t.caption := by
  obtain ⟨rest, heq, -⟩ := exists_heading_eq t
  obtain ⟨hletters, hcapital⟩ := t.kindName_letters
  obtain ⟨c, hhead, hc⟩ := (Option.any_eq_true _ _).1 hcapital
  refine ⟨c, ?_, List.all_eq_true.1 hletters c (List.mem_of_mem_head? hhead), hc⟩
  rw [caption, String.toList_append, String.toList_append, heq, List.append_assoc, List.append_assoc,
    List.head?_append, hhead, Option.some_or]

/-- A caption says the heading and the span, which is all behind the last blank. -/
theorem caption_inj (h : t.caption = u.caption) : t.heading = u.heading ∧ t.span = u.span := by
  have heq : t.heading.toList ++ ' ' :: (toString t.span).toList =
      u.heading.toList ++ ' ' :: (toString u.span).toList := by
    have hlist := congrArg String.toList h
    simp only [caption, String.toList_append, List.append_assoc] at hlist
    exact hlist
  obtain ⟨hheading, hspan⟩ := append_cons_inj_right t.span.not_mem_toString.1
    u.span.not_mem_toString.1 heq
  exact ⟨String.toList_inj.1 hheading, Span.toString_injective hspan⟩

/-- The caption of a presentable node fills a single line. -/
theorem Presentable.newline_not_mem_caption (h : t.Presentable) : '\n' ∉ t.caption.toList := by
  have happend : ∀ {a b : String}, '\n' ∉ a.toList → '\n' ∉ b.toList → '\n' ∉ (a ++ b).toList := by
    intro a b ha hb hmem
    rw [String.toList_append] at hmem
    exact (List.mem_append.1 hmem).elim ha hb
  have hheading : '\n' ∉ t.heading.toList := by
    cases t with
    | literal _ v => exact happend (by decide) (Value.newline_not_mem_display (h.literal _ v rfl))
    | reference _ n => exact happend (by decide) (h.named n rfl)
    | nameless s => exact absurd rfl (h.known s)
    | declaration _ n => exact happend (by decide) (h.named n rfl)
    | assignment _ n => exact happend (by decide) (h.named n rfl)
    | binary _ op => exact happend (by decide) (by cases op <;> decide)
    | unary _ op => exact happend (by decide) (by cases op <;> decide)
    | call _ _ args =>
      exact happend (happend (by decide) (not_mem_toString_nat rfl args.length)) (by decide)
    | block _ _ tail => cases tail <;> (rw [heading]; decide)
    | doBlock => rw [heading]; decide
    | loop => rw [heading]; decide
    | bare => rw [heading]; decide
  exact happend (happend hheading (by decide)) t.span.not_mem_toString.2

/-- Nodes with the same heading, the same span and the same below them are shown alike. -/
theorem ShownAlike.of_heading_eq (ht : t.Presentable) (hu : u.Presentable) (hspan : t.span = u.span)
    (hheading : t.heading = u.heading) (hchildren : List.Forall₂ ShownAlike t.children u.children) :
    ShownAlike t u := by
  have hkind := kindName_eq_of_heading_eq hheading
  -- What a heading says behind the kind of the node.
  have hrest : ∀ {front a b : String}, front ++ a = front ++ b → a = b := (String.append_right_inj _).1
  cases t with
  | literal s v =>
    cases u with
    | literal s' w =>
      cases hspan
      exact .literal ((Value.display_eq_iff (ht.literal _ _ rfl) (hu.literal _ _ rfl)).1 (hrest hheading))
    | _ => simp [kindName] at hkind
  | reference s n =>
    cases u with
    | reference s' n' =>
      cases hspan
      cases hrest hheading
      exact .reference
    | nameless s' => exact absurd rfl (hu.known s')
    | _ => simp [kindName] at hkind
  | nameless s => exact absurd rfl (ht.known s)
  | declaration s n e =>
    cases u with
    | declaration s' n' e' =>
      cases hspan
      cases hrest hheading
      cases hchildren with
      | cons he => exact .declaration he
    | _ => simp [kindName] at hkind
  | assignment s n e =>
    cases u with
    | assignment s' n' e' =>
      cases hspan
      cases hrest hheading
      cases hchildren with
      | cons he => exact .assignment he
    | _ => simp [kindName] at hkind
  | binary s op a b =>
    cases u with
    | binary s' op' a' b' =>
      cases hspan
      cases BinaryOperator.symbol_injective (hrest hheading)
      obtain _ | ⟨ha, _ | ⟨hb, -⟩⟩ := hchildren
      exact .binary ha hb
    | _ => simp [kindName] at hkind
  | unary s op a =>
    cases u with
    | unary s' op' a' =>
      cases hspan
      cases UnaryOperator.symbol_injective (hrest hheading)
      cases hchildren with
      | cons ha => exact .unary ha
    | _ => simp [kindName] at hkind
  | call s f args =>
    cases u with
    | call s' f' args' =>
      cases hspan
      cases hchildren with
      | cons hf hargs => exact .call hf hargs
    | _ => simp [kindName] at hkind
  | block s es tail =>
    cases u with
    | block s' es' tail' =>
      cases hspan
      cases tail with
      | none =>
        cases tail' with
        | none =>
          rw [children, children, Option.toList_none, List.append_nil, List.append_nil] at hchildren
          exact .block hchildren .none
        | some e' => exact absurd hheading (by simp [heading])
      | some e =>
        cases tail' with
        | none => exact absurd hheading (by simp [heading])
        | some e' =>
          obtain ⟨front, back, heq, hes, hback⟩ := forall₂_append_cases hchildren
          obtain _ | ⟨he, _ | _⟩ := hback
          obtain ⟨rfl, hlast⟩ := List.append_inj' heq rfl
          cases hlast
          exact .block hes (.some he)
    | _ => simp [kindName] at hkind
  | doBlock s b =>
    cases u with
    | doBlock s' b' =>
      cases hspan
      cases hchildren with
      | cons hb => exact .doBlock hb
    | _ => simp [kindName] at hkind
  | loop s b =>
    cases u with
    | loop s' b' =>
      cases hspan
      cases hchildren with
      | cons hb => exact .loop hb
    | _ => simp [kindName] at hkind
  | bare s =>
    cases u with
    | bare s' =>
      cases hspan
      exact .bare
    | _ => simp [kindName] at hkind

end Tree

end Curly
