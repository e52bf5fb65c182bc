import Curly.Tree.Basic

/-!
# Roles of trees

A tree that is read from a text has declarations only among the statements of blocks, and blocks only
behind the words that run them.

## Main definitions

* `Tree.Role`, `Tree.Plays`: what a tree can stand for.
* `Tree.at?`: the node that a path leads to.
-/

namespace Curly.Tree

/-- What a tree can stand for. -/
inductive Role where
  /-- A statement: a declaration or an expression. -/
  | statement
  /-- Something that has a value and declares nothing in the scopes around it. -/
  | expression
  /-- Statements in a scope of their own. -/
  | block
deriving DecidableEq

/-- The tree can stand for a statement, an expression or a block, and so can all trees in it. -/
inductive Plays : Role → Tree → Prop where
  | literal {s v} : Plays .expression (.literal s v)
  | reference {s n} : Plays .expression (.reference s n)
  | assignment {s n e} (he : Plays .expression e) : Plays .expression (.assignment s n e)
  | binary {s op a b} (ha : Plays .expression a) (hb : Plays .expression b) :
      Plays .expression (.binary s op a b)
  | unary {s op a} (ha : Plays .expression a) : Plays .expression (.unary s op a)
  | call {s f args} (hf : Plays .expression f) (hargs : ∀ a ∈ args, Plays .expression a) :
      Plays .expression (.call s f args)
  | doBlock {s b} (hb : Plays .block b) : Plays .expression (.doBlock s b)
  | loop {s b} (hb : Plays .block b) : Plays .expression (.loop s b)
  | block {s es t} (hes : ∀ e ∈ es, Plays .statement e) (ht : ∀ e, t = some e → Plays .statement e) :
      Plays .block (.block s es t)
  | declaration {s n e} (he : Plays .expression e) : Plays .statement (.declaration s n e)
  | evaluation {e} (he : Plays .expression e) : Plays .statement e

theorem Plays.withSpan {t : Tree} (h : Plays .expression t) (s : Span) :
    Plays .expression (t.withSpan s) := by
  cases h <;> constructor <;> assumption

/-- Every tree that plays a role has a name where it needs one, and a meaning. -/
theorem Plays.meant {role : Role} {t : Tree} (h : Plays role t) :
    t ≠ .nameless t.span ∧ t ≠ .bare t.span := by
  induction h with
  | evaluation _ ih => exact ih
  | _ => exact ⟨nofun, nofun⟩

/-- The node that a path leads to. The path says which child is taken at each node on the way, the last
choice first. -/
def at? (t : Tree) : List Nat → Option Tree
  | [] => some t
  | i :: path => (t.at? path).bind fun u => u.children[i]?

variable {t u : Tree} {path : List Nat}

@[simp] theorem at?_nil (t : Tree) : t.at? [] = some t := rfl

theorem at?_cons (h : t.at? path = some u) (i : Nat) : t.at? (i :: path) = u.children[i]? := by
  rw [at?, h, Option.bind_some]

theorem Plays.exists_child {role : Role} (h : Plays role t) (hu : u ∈ t.children) :
    ∃ role', Plays role' u := by
  induction h with
  | literal => cases hu
  | reference => cases hu
  | assignment he => exact ⟨_, List.mem_singleton.1 hu ▸ he⟩
  | binary ha hb =>
    rcases List.mem_cons.1 hu with rfl | hu
    · exact ⟨_, ha⟩
    · exact ⟨_, List.mem_singleton.1 hu ▸ hb⟩
  | unary ha => exact ⟨_, List.mem_singleton.1 hu ▸ ha⟩
  | call hf hargs =>
    rcases List.mem_cons.1 hu with rfl | hu
    · exact ⟨_, hf⟩
    · exact ⟨_, hargs u hu⟩
  | doBlock hb => exact ⟨_, List.mem_singleton.1 hu ▸ hb⟩
  | loop hb => exact ⟨_, List.mem_singleton.1 hu ▸ hb⟩
  | block hes ht =>
    rcases List.mem_append.1 hu with hu | hu
    · exact ⟨_, hes u hu⟩
    · exact ⟨_, ht u (Option.mem_toList.1 hu)⟩
  | declaration he => exact ⟨_, List.mem_singleton.1 hu ▸ he⟩
  | evaluation _ ih => exact ih hu

/-- What is assigned is an expression, whatever the assignment stands for. -/
theorem Plays.value_of_assignment {role : Role} {s : Span} {n : String} {e : Tree}
    (h : Plays role (.assignment s n e)) : Plays .expression e := by
  cases h with
  | assignment he => exact he
  | evaluation h =>
    cases h with
    | assignment he => exact he

/-- Every node in a tree that plays a role plays one itself. -/
theorem Plays.exists_at? {role : Role} (h : Plays role t) (hu : t.at? path = some u) :
    ∃ role', Plays role' u := by
  induction path generalizing u with
  | nil =>
    cases hu
    exact ⟨role, h⟩
  | cons i path ih =>
    obtain ⟨v, hv, hi⟩ := Option.bind_eq_some_iff.1 hu
    obtain ⟨role', hrole⟩ := ih hv
    exact hrole.exists_child (List.mem_of_getElem? hi)

end Curly.Tree
