import Curly.Tree.Unit
import Curly.Run.Evaluation

/-!
# Traces

What was written down by readings and runs, as lines. A trace shows every token when it is drawn, so
its order tells how far the text was drawn when something else happened.
-/

namespace Curly

/-- A line of a trace. -/
def traceLine (text : String) : String := "[DBG] " ++ text

namespace Cursor

/-- The line for a token. The end of input, which has no characters, is not shown. -/
def tokenLine? (t : Token) : Option String :=
  if t.kind = .endOfInput && t.lexeme.isEmpty then none
  else some (traceLine ("token " ++ t.inspect))

/-- The line for a note of a reading. -/
def Note.line? : Note → Option String
  | .token t => tokenLine? t
  | .declaration name span => some (traceLine ("declaration " ++ name ++ " " ++ toString span))

/-- The trace of a reading, from its beginning. -/
def trace (c : Cursor) : List String := c.notes.reverse.filterMap Note.line?

end Cursor

namespace Run

/-- The line for a note of a run. -/
def Note.line? : Note → Option String
  | .visit _ => none
  | .lookUp .. => none
  | .enterBlock depth => some (traceLine ("enter block, depth " ++ toString depth))
  | .shadows name => some (traceLine ("declaration shadows " ++ name))
  | .round n => some (traceLine ("loop iteration " ++ toString n))

/-- The trace of a run, from its beginning. -/
def trace (r : Run) : List String := (r.journal.getD []).reverse.filterMap Note.line?

end Run

end Curly
