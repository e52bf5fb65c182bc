import Curly.Tree.Basic

/-!
# Trees with other names

## Main definitions

* `Tree.mapNames`: the tree with every name in it replaced.
* `Tree.rename`: the tree with one name replaced by another.
-/

namespace Curly.Tree

mutual

/-- The tree with every name that it reads, declares or assigns to replaced. All spans are kept, also
where a name and what replaces it differ in length. -/
def mapNames (f : String → String) : Tree → Tree
  | literal s v => literal s v
  | reference s n => reference s (f n)
  | nameless s => nameless s
  | declaration s n e => declaration s (f n) (e.mapNames f)
  | assignment s n e => assignment s (f n) (e.mapNames f)
  | binary s op a b => binary s op (a.mapNames f) (b.mapNames f)
  | unary s op a => unary s op (a.mapNames f)
  | call s g args => call s (g.mapNames f) (mapNamesAll f args)
  | block s es t => block s (mapNamesAll f es) (mapNamesTail f t)
  | doBlock s b => doBlock s (b.mapNames f)
  | loop s b => loop s (b.mapNames f)
  | bare s => bare s

/-- `mapNames` in each of some trees. -/
def mapNamesAll (f : String → String) : List Tree → List Tree
  | [] => []
  | t :: ts => t.mapNames f :: mapNamesAll f ts

/-- `mapNames` in the tail of a block. -/
def mapNamesTail (f : String → String) : Option Tree → Option Tree
  | none => none
  | some t => some (t.mapNames f)

end

/-- The name `y` in the place of the name `x`. -/
def exchange (x y n : String) : String := if n = x then y else n

/-- The tree with the name `y` wherever it has the name `x`. -/
def rename (x y : String) : Tree → Tree := mapNames (exchange x y)

variable (f : String → String)

theorem mapNamesAll_eq_map (ts : List Tree) : mapNamesAll f ts = ts.map (mapNames f) := by
  induction ts with
  | nil => rfl
  | cons t ts ih => rw [mapNamesAll, ih, List.map_cons]

theorem mapNamesTail_eq_map (t : Option Tree) : mapNamesTail f t = t.map (mapNames f) := by
  cases t <;> rfl

theorem span_mapNames (t : Tree) : (t.mapNames f).span = t.span := by
  cases t <;> rfl

theorem calls_mapNames (t : Tree) : (t.mapNames f).calls = t.calls := by
  cases t <;> rfl

mutual

/-- A tree whose names are all replaced by themselves is the same tree. -/
theorem mapNames_id : (t : Tree) → t.mapNames id = t
  | literal .. | reference .. | nameless .. | bare .. => rfl
  | declaration _ _ e => by rw [mapNames, mapNames_id e, id]
  | assignment _ _ e => by rw [mapNames, mapNames_id e, id]
  | binary _ _ a b => by rw [mapNames, mapNames_id a, mapNames_id b]
  | unary _ _ a => by rw [mapNames, mapNames_id a]
  | call _ g args => by rw [mapNames, mapNames_id g, mapNamesAll_id args]
  | block _ es t => by rw [mapNames, mapNamesAll_id es, mapNamesTail_id t]
  | doBlock _ b => by rw [mapNames, mapNames_id b]
  | loop _ b => by rw [mapNames, mapNames_id b]

theorem mapNamesAll_id : (ts : List Tree) → mapNamesAll id ts = ts
  | [] => rfl
  | t :: ts => by rw [mapNamesAll, mapNames_id t, mapNamesAll_id ts]

theorem mapNamesTail_id : (t : Option Tree) → mapNamesTail id t = t
  | none => rfl
  | some t => by rw [mapNamesTail, mapNames_id t]

end

theorem exchange_self (x y : String) : exchange x y x = y := if_pos rfl

theorem exchange_of_ne {x y n : String} (h : n ≠ x) : exchange x y n = n := if_neg h

/-- Two names that are both not `y` are still different when `y` has taken the place of `x`. -/
theorem exchange_inj {x y n m : String} (hn : n ≠ y) (hm : m ≠ y) :
    exchange x y n = exchange x y m ↔ n = m := by
  unfold exchange
  by_cases hnx : n = x
  · by_cases hmx : m = x
    · simp [hnx, hmx]
    · simp only [if_pos hnx, if_neg hmx]
      exact ⟨fun h => absurd h.symm hm, fun h => absurd (h.symm.trans hnx) hmx⟩
  · by_cases hmx : m = x
    · simp only [if_neg hnx, if_pos hmx]
      exact ⟨fun h => absurd h hn, fun h => absurd (h.trans hmx) hnx⟩
    · simp only [if_neg hnx, if_neg hmx]

end Curly.Tree
