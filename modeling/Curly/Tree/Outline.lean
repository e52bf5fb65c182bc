import Curly.Tree.Basic
import Curly.Value.Display

/-!
# Outlines

A tree as indented lines: one line for each node, with its span, and the nodes below it further in.
Some children have a line with their role above them and stand one step further in for it.

## Main definitions

* `Tree.heading`: the line of a node, without indentation and span.
* `Tree.roles`: the children of a node with their roles.
* `Tree.outline?`: the lines of a tree, if it is not nested too deeply.
-/

namespace Curly

namespace Tree

/-- The line of a node, without indentation and span. -/
def heading : Tree → String
  | literal _ v => "Literal " ++ v.display
  | reference _ n => "Variable " ++ n
  | nameless _ => "Variable " ++ unknownName
  | declaration _ n _ => "Declaration " ++ n
  | assignment _ n _ => "Assignment " ++ n
  | binary _ op _ _ => "BinaryExpr " ++ op.symbol
  | unary _ op _ => "UnaryExpr " ++ op.symbol
  | call _ _ args => "Call (" ++ toString args.length ++ " args)"
  | block _ _ none => "Block"
  | block _ _ (some _) => "Block (with tail)"
  | doBlock _ _ => "DoBlock"
  | loop _ _ => "Loop"
  | bare _ => "Node"

/-- The children of a node, from left to right, with their roles where these are shown. -/
def roles : Tree → List (Option String × Tree)
  | call _ f args =>
    (some "callee", f) :: args.zipIdx.map fun (a, i) => (some ("arg " ++ toString i), a)
  | block _ es tail => es.map (none, ·) ++ tail.toList.map (some "tail", ·)
  | t => t.children.map (none, ·)

/-- The indentation of a level, given how far one step is. Steps and levels that are negative count
for nothing. -/
def indentation (width level : Int) : String :=
  String.ofList (List.replicate (width.toNat * level.toNat) ' ')

/-- The lines of a tree whose root stands at the given level, if it has at most `room` levels of
nodes. -/
def outlineAt? (width : Int) : (room : Nat) → (level : Int) → Tree → Option (List String)
  | 0, _, _ => none
  | room + 1, level, t => do
    let below ← t.roles.mapM fun (role, child) =>
      match role with
      | some name => do
        let lines ← outlineAt? width room (level + 2) child
        return (indentation width level ++ indentation width 1 ++ name ++ ":") :: lines
      | none => outlineAt? width room (level + 1) child
    return (indentation width level ++ t.heading ++ " " ++ toString t.span) :: below.flatten

/-- The lines of a tree, if it is not nested too deeply. -/
def outline? (width level : Int) (t : Tree) : Option (List String) :=
  outlineAt? width nestingLimit level t

/-- The width of a step where none is asked for. -/
def standardWidth : Int := 2

end Tree

end Curly
