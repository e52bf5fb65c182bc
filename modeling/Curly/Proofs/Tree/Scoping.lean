import Curly.Proofs.Scope.Layout
import Curly.Proofs.Tree.Roles

/-!
# Static scoping

What the text of a tree says about where the names at a node belong. Nothing here runs anything.

## Main definitions

* `Tree.lookedUp?`: the name that a node looks up.
* `Tree.declaredBefore`: the names declared before a node in each of the blocks around it.
* `Tree.owner?`: the scope that a name at a node belongs to.
* `Tree.chainAt`: scopes that bind what is declared before a node.

## Main statements

* `Tree.owner?_chainAt`: both say the same.
-/

namespace Curly.Tree

/-- The name that a node looks up, and the part of the text that is to blame if there is none. -/
def lookedUp? : Tree → Option (String × Span)
  | reference s n => some (n, s)
  | assignment s n _ => some (n, .ofLength s.start n.length)
  | _ => none

/-- The name that a statement declares. -/
def declared? : Tree → Option String
  | declaration _ n _ => some n
  | _ => none

/-- For each block around the node at a path, the innermost first, the names that are declared by those
of its statements that come before the one with the node. -/
def declaredBefore (t : Tree) : List Nat → List (List String)
  | [] => []
  | i :: path =>
    match t.at? path with
    | some (.block _ es _) => (es.take i).filterMap declared? :: t.declaredBefore path
    | _ => t.declaredBefore path

/-- The scope that a name at the node at a path belongs to, given by the number of scopes inside it: that
of the innermost block which declares the name before the node. The root has no scope of its own: if
no other block declares the name, it belongs where it does in `start` with what the root declares. -/
def owner? (t : Tree) (start : Chain) (path : List Nat) (name : String) : Option Nat :=
  let blocks := (t.declaredBefore path).dropLast
  let root := (t.declaredBefore path).getLast?.getD []
  match blocks.findIdx? fun names => names.contains name with
  | some k => some k
  | none => ((start.declareAll root).owner? name).map (· + blocks.length)

/-- The scopes at the node at a path, as far as their names are concerned. -/
def chainAt (t : Tree) (start : Chain) : List Nat → Chain
  | [] => start
  | i :: path =>
    match t.at? path with
    | some (.block _ es _) =>
      (if path = [] then start else (t.chainAt start path).push).declareAll
        ((es.take i).filterMap declared?)
    | _ => t.chainAt start path

end Curly.Tree

namespace Curly

namespace Bindings

theorem binds_bind (b : Bindings) (name other : String) (v : Value) :
    (bind name v b).binds other = (decide (other = name) || b.binds other) := by
  rw [binds, binds, find?_bind]
  by_cases h : other = name <;> simp [h]

end Bindings

namespace Chain

theorem owner?_cons (b : Bindings) (c : Chain) (name : String) :
    owner? (b :: c) name = if b.binds name then some 0 else (owner? c name).map (· + 1) :=
  List.findIdx?_cons

theorem owner?_declareAll_cons (names : List String) (b : Bindings) (c : Chain) (name : String) :
    (declareAll names (b :: c)).owner? name =
      if names.contains name || b.binds name then some 0 else (c.owner? name).map (· + 1) := by
  induction names generalizing b with
  | nil => rw [declareAll, List.foldl_nil, owner?_cons]; simp
  | cons n names ih =>
    have h := ih (Bindings.bind n .null b)
    rw [Bindings.binds_bind] at h
    rw [declareAll, List.foldl_cons]
    refine h.trans ?_
    by_cases hn : name = n
    · simp [hn]
    · simp [hn]

theorem owner?_declareAll_push (names : List String) (c : Chain) (name : String) :
    (declareAll names c.push).owner? name =
      if names.contains name then some 0 else (c.owner? name).map (· + 1) := by
  rw [push, owner?_declareAll_cons, Bindings.binds, Bindings.find?_nil, Option.isSome_none,
    Bool.or_false]

end Chain

namespace Tree

variable {t : Tree} {path : List Nat} {i : Nat} (start : Chain)

section

variable {u : Tree}

/-- Outside blocks, a node sees the same scopes as the nodes below it. -/
theorem chainAt_cons (hu : t.at? path = some u) (hblock : ∀ s es tail, u ≠ .block s es tail) :
    t.chainAt start (i :: path) = t.chainAt start path := by
  rw [chainAt, hu]
  cases u <;> first | rfl | exact absurd rfl (hblock _ _ _)

end

/-- The blocks around a node in a block include the block itself. -/
theorem declaredBefore_ne_nil {s : Span} {es : List Tree} {tail : Option Tree}
    (ht : t = .block s es tail) (hpath : path ≠ []) : t.declaredBefore path ≠ [] := by
  induction path with
  | nil => exact absurd rfl hpath
  | cons i path ih =>
    rw [declaredBefore]
    split
    · exact List.cons_ne_nil _ _
    · next h =>
      refine ih ?_
      rintro rfl
      exact h s es tail (by rw [at?_nil, ht])

/-- **Static scoping**: the scopes at a node bind a name where its text says. -/
theorem owner?_chainAt {s : Span} {es : List Tree} {tail : Option Tree} (ht : t = .block s es tail)
    (hpath : path ≠ []) (name : String) :
    (t.chainAt start path).owner? name = t.owner? start path name := by
  induction path with
  | nil => exact absurd rfl hpath
  | cons i path ih =>
    by_cases hroot : path = []
    · subst hroot
      subst ht
      simp only [chainAt, owner?, declaredBefore, at?_nil, if_true, List.dropLast_singleton,
        List.findIdx?_nil, List.getLast?_singleton, Option.getD_some, List.length_nil, Nat.add_zero,
        Option.map_id']
    · have hbelow := ih hroot
      have hne := declaredBefore_ne_nil ht hroot
      obtain ⟨names, rest, hrest⟩ := List.exists_cons_of_ne_nil hne
      simp only [chainAt, owner?, declaredBefore] at hbelow ⊢
      split
      · next es' _ _ =>
        rw [if_neg hroot, Chain.owner?_declareAll_push, hbelow, hrest, List.dropLast_cons_cons,
          List.getLast?_cons_cons, List.findIdx?_cons]
        by_cases hname : ((es'.take i).filterMap declared?).contains name = true
        · rw [if_pos hname, if_pos hname]
        · rw [if_neg hname, if_neg hname]
          split
          · next k hk => rw [hk, Option.map_some]
          · next hk =>
            rw [hk, Option.map_none, Option.map_map, List.length_cons]
            rfl
      · exact hbelow

end Tree

end Curly
