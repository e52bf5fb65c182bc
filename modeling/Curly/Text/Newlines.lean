/-!
# Line ends

Files and typed input may end their lines by a newline, a carriage return, or both in that order.
Everything past the reading of a text knows only newlines.

## Main definitions

* `Newlines.unify`: each of the three line ends becomes a newline.
* `Newlines.typedLines`: a text as the lines a reader takes from it, each with its newline.
-/

namespace Curly.Newlines

/-- The text with every line end written as a newline. -/
def unify : List Char → List Char
  | [] => []
  | '\r' :: '\n' :: rest => '\n' :: unify rest
  | '\r' :: rest => '\n' :: unify rest
  | c :: rest => c :: unify rest

/-- The lines that a reader takes from a text one after another. Each keeps its newline; only the
last may lack one, and none is empty. -/
def typedLines : List Char → List (List Char)
  | [] => []
  | c :: cs =>
    if c = '\n' then [c] :: typedLines cs
    else match typedLines cs with
      | [] => [[c]]
      | line :: rest => (c :: line) :: rest

end Curly.Newlines
