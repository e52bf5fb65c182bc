import Curly.Proofs.Grammar.Exactness
import Curly.Proofs.Tree.Roles

/-!
# The roles of trees that are read

## Main statements

* `Phrase.Derives.plays`: phrases have the trees that their names promise.
* `Tree.read_plays`: what is read of a text is a block or a statement.
-/

namespace Curly

/-- What the tree of a phrase can stand for. -/
def Phrase.role : Phrase → Tree.Role
  | statement => .statement
  | block => .block
  | _ => .expression

theorem Phrase.role_tighter (l : Layer) : l.tighter.role = .expression := by
  cases l <;> rfl

theorem Listing.mem_parts {ts : List Token} {parts : List Part} {es : List Tree} {t : Option Tree}
    (h : Listing ts parts es t) {T : Tree} (hT : T ∈ es ++ t.toList) : ∃ p ∈ parts, p.2 = T := by
  induction h with
  | nil => cases hT
  | tail =>
    rw [List.mem_singleton.1 hT]
    exact ⟨_, List.mem_singleton_self _, rfl⟩
  | statement _ _ _ ih =>
    rcases List.mem_cons.1 hT with rfl | hT
    · exact ⟨_, List.mem_cons_self .., rfl⟩
    · obtain ⟨p, hp, h⟩ := ih hT
      exact ⟨p, List.mem_cons_of_mem _ hp, h⟩

variable {d : Nat} {ts : List Token} {T : Tree}

/-- Statements in a listing make a block. -/
theorem Listing.plays {parts : List Part} {es : List Tree} {t : Option Tree} {s : Span}
    (h : Listing ts parts es t) (hparts : ∀ p ∈ parts, Tree.Plays .statement p.2) :
    Tree.Plays .block (.block s es t) := by
  refine .block (fun e he => ?_) fun e he => ?_
  · obtain ⟨p, hp, rfl⟩ := h.mem_parts (List.mem_append_left _ he)
    exact hparts p hp
  · obtain ⟨p, hp, rfl⟩ := h.mem_parts (List.mem_append_right es (Option.mem_toList.2 he))
    exact hparts p hp

theorem Phrase.Derives.plays {x : Phrase} (h : Derives d x ts T) : Tree.Plays x.role T := by
  induction h with
  | declaration _ _ _ _ ih => exact .declaration ih
  | bareDeclaration => exact .declaration .literal
  | evaluation _ ih => exact .evaluation ih
  | assignment _ _ _ ih => exact .assignment ih
  | operation _ ih => exact ih
  | @tighter _ l _ _ _ ih =>
    rw [Phrase.role_tighter] at ih
    exact ih
  | @binary _ l _ _ _ _ _ _ _ _ _ iha ihb =>
    rw [Phrase.role_tighter] at ihb
    exact .binary iha ihb
  | unary _ _ ih => exact .unary ih
  | unsigned _ ih => exact ih
  | uncalled _ ih => exact ih
  | call _ _ _ _ _ ihf ihparts =>
    refine .call ihf fun a ha => ?_
    obtain ⟨p, hp, rfl⟩ := List.mem_map.1 ha
    exact ihparts p hp
  | literal => exact .literal
  | reference => exact .reference
  | doBlock _ _ ih => exact .doBlock ih
  | loop _ _ ih => exact .loop ih
  | parenthesized _ _ _ ih => exact ih.withSpan _
  | block _ _ hts _ _ ih => exact hts.plays ih

/-- What the tree of a whole text can stand for. -/
def TextUnit.role : TextUnit → Tree.Role
  | single => .statement
  | _ => .block

theorem TextUnit.Derives.plays {u : TextUnit} (h : Derives d u ts T) : Tree.Plays u.role T := by
  cases h with
  | program _ hts hparts =>
    refine .block (fun e he => ?_) fun e he => by cases he
    obtain ⟨p, hp, rfl⟩ := hts.mem_parts he
    exact (hparts p hp).plays
  | single _ h => exact h.plays
  | statements _ hts hparts => exact hts.plays fun p hp => (hparts p hp).plays

/-- What is read of a text can stand for what it is read as. -/
theorem Tree.read_plays {u : TextUnit} {text : List Char} {c : Cursor}
    (h : Tree.read u text = .ok T c) : Tree.Plays u.role T :=
  (Tree.read_sound h).2.plays

end Curly
