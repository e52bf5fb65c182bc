import Curly.Proofs.Tree.Roles

/-!
# Trees with one subtree replaced

## Main definitions

* `Tree.mapChildren`: the tree with something done to each tree just below its root.
* `Tree.modifyAt`, `Tree.replaceAt`: the tree with something done to the subtree at a path, or with another
  tree in its place.
* `Tree.DiffersAt`: trees that differ in the subtree at one path at most.

## Main statements

* `Tree.at?_replaceAt`: the tree that stands at the path afterwards.
* `Tree.DiffersAt.children`: away from the path the roots are alike, and so are the subtrees below.
-/

namespace Curly.Tree

/-- The tree with something done to each tree just below its root, which is given by its number. -/
def mapChildren (f : Nat → Tree → Tree) : Tree → Tree
  | literal s v => literal s v
  | reference s n => reference s n
  | nameless s => nameless s
  | declaration s n e => declaration s n (f 0 e)
  | assignment s n e => assignment s n (f 0 e)
  | binary s op a b => binary s op (f 0 a) (f 1 b)
  | unary s op a => unary s op (f 0 a)
  | call s g args => call s (f 0 g) (args.mapIdx fun i a => f (i + 1) a)
  | block s es t => block s (es.mapIdx f) (t.map (f es.length))
  | doBlock s b => doBlock s (f 0 b)
  | loop s b => loop s (f 0 b)
  | bare s => bare s

/-- The tree with something done to the subtree at a path. The path says which child is taken at each node
on the way, the last choice first. -/
def modifyAt : (path : List Nat) → (Tree → Tree) → Tree → Tree
  | [], f => f
  | i :: path, f => modifyAt path (mapChildren fun j e => if j = i then f e else e)

/-- The tree with another tree in the place of the subtree at a path. -/
def replaceAt (t : Tree) (path : List Nat) (u : Tree) : Tree := t.modifyAt path fun _ => u

/-- `DiffersAt hole path t t'`: the trees `t` and `t'` at the path `path` of two larger trees are the same,
but for the subtree that is at the path `hole` of the larger trees. -/
inductive DiffersAt (hole : List Nat) : List Nat → Tree → Tree → Prop where
  | same {path t} : DiffersAt hole path t t
  | modified {path t} (rest : List Nat) (f : Tree → Tree) (h : hole = rest ++ path) :
      DiffersAt hole path t (t.modifyAt rest f)

variable {t u : Tree} {path : List Nat}

@[simp] theorem span_mapChildren (f : Nat → Tree → Tree) (t : Tree) : (t.mapChildren f).span = t.span := by
  cases t <;> rfl

theorem calls_mapChildren (f : Nat → Tree → Tree) (t : Tree) : (t.mapChildren f).calls = t.calls := by
  cases t <;> rfl

theorem children_mapChildren (f : Nat → Tree → Tree) (t : Tree) :
    (t.mapChildren f).children = t.children.mapIdx f := by
  cases t with
  | call => simp [mapChildren, children, List.mapIdx_cons]
  | block s es t => cases t <;> simp [mapChildren, children, List.mapIdx_append]
  | _ => rfl

@[simp] theorem mapChildren_id (t : Tree) : (t.mapChildren fun _ e => e) = t := by
  have list : ∀ l : List Tree, l.mapIdx (fun _ e => e) = l := fun l =>
    List.ext_getElem List.length_mapIdx fun i _ _ => List.getElem_mapIdx
  cases t <;> simp only [mapChildren, list, Option.map_id']

/-- Seen from the root, something is done to the child through which the path goes. -/
theorem modifyAt_concat (path : List Nat) (i : Nat) (f : Tree → Tree) (t : Tree) :
    t.modifyAt (path ++ [i]) f = t.mapChildren fun j e => if j = i then e.modifyAt path f else e := by
  induction path generalizing f with
  | nil => rfl
  | cons k path ih => exact ih _

theorem span_modifyAt (hpath : path ≠ []) (f : Tree → Tree) (t : Tree) :
    (t.modifyAt path f).span = t.span := by
  obtain rfl | ⟨rest, i, rfl⟩ := List.eq_nil_or_concat path
  · exact absurd rfl hpath
  · rw [List.concat_eq_append, modifyAt_concat, span_mapChildren]

theorem at?_modifyAt (path : List Nat) (f : Tree → Tree) (t : Tree) :
    (t.modifyAt path f).at? path = (t.at? path).map f := by
  induction path generalizing f with
  | nil => rfl
  | cons i path ih =>
    rw [modifyAt, at?, ih, at?]
    cases t.at? path with
    | none => rfl
    | some v =>
      rw [Option.map_some, Option.bind_some, Option.bind_some, children_mapChildren, List.getElem?_mapIdx]
      cases v.children[i]? with
      | none => rfl
      | some e => exact congrArg some (if_pos rfl)

/-- If there is a subtree at the path, the other tree stands there afterwards. -/
theorem at?_replaceAt (h : (t.at? path).isSome = true) : (t.replaceAt path u).at? path = some u := by
  obtain ⟨v, hv⟩ := Option.isSome_iff_exists.1 h
  rw [replaceAt, at?_modifyAt, hv, Option.map_some]

/-- Away from the hole the roots are alike, and what is below them differs at the hole only. -/
theorem DiffersAt.children {hole : List Nat} {t' : Tree} (h : DiffersAt hole path t t')
    (hpath : path ≠ hole) :
    ∃ f, t' = t.mapChildren f ∧ ∀ i e, DiffersAt hole (i :: path) e (f i e) := by
  cases h with
  | same => exact ⟨_, (mapChildren_id t).symm, fun _ _ => .same⟩
  | modified rest f h =>
    obtain rfl | ⟨rest, i, rfl⟩ := List.eq_nil_or_concat rest
    · exact absurd h.symm hpath
    · rw [List.concat_eq_append] at h ⊢
      refine ⟨_, modifyAt_concat rest i f t, fun j e => ?_⟩
      split
      · next hj =>
        subst hj
        exact .modified rest f (h.trans (List.append_assoc rest [j] path))
      · exact .same

end Curly.Tree
