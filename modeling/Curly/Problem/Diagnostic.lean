import Curly.Problem.Basic
import Curly.Text.Position
import Curly.Text.Quoted

/-!
# Diagnostics

A diagnostic shows a message together with the lines of the text that it is about. Under each line a
row of carets marks the part that the span covers.

## Main definitions

* `Diagnostic`: a text, a message, a span and a label.
* `Diagnostic.render`: its written form.
* `Report`: a text with the diagnostics recorded about it.
-/

namespace Curly

/-- A message about a part of a text. -/
structure Diagnostic where
  /-- The text. -/
  source : String
  /-- The message. -/
  message : String
  /-- The part of the text that the message is about. It may lie beyond the end. -/
  span : Span
  /-- The headline. -/
  label : String := "Error"
deriving DecidableEq

namespace Diagnostic

/-- A number of equal characters. -/
def fill (n : Nat) (c : Char) : String := String.ofList (List.replicate n c)

/-- A line number, filled with spaces from the left to a given width. -/
def padNumber (width n : Nat) : String :=
  let digits := toString n
  fill (width - digits.length) ' ' ++ digits

/-- The text line with the given index and the row of carets under it, for the part of the text from
`start` to `stop`. There is at least one caret. -/
def excerptLine (starts : Array Nat) (lines : Array (List Char)) (width start stop index : Nat) :
    List String :=
  let content := lines.getD index []
  let lineStart := starts.getD index 0
  let caretFrom := max start lineStart - lineStart
  let caretTo := min stop (lineStart + content.length) - lineStart
  ["> " ++ padNumber width (index + 1) ++ " | " ++ String.ofList content,
    "  " ++ fill width ' ' ++ " | " ++ fill caretFrom ' ' ++ fill (max (caretTo - caretFrom) 1) '^']

/-- The lines of the written form: headline, place, and an excerpt of every line that the span
touches. A span that ends just after a newline does not touch the line that begins there. -/
def renderLines (d : Diagnostic) : List String :=
  let text := d.source.toList
  let start := min d.span.start text.length
  let stop := min (max d.span.stop start) text.length
  let starts := lineStarts text
  let lines := (linesOf text).toArray
  let first := lineIndex starts start
  let last := if start < stop then lineIndex starts (stop - 1 : Nat) else first
  let width := (toString (last + 1)).length
  let place := Position.ofOffset text start
  [d.label ++ ": " ++ d.message,
    fill width ' ' ++ "--> line " ++ toString place.line ++ ", col " ++ toString place.column] ++
    (List.range' first (last + 1 - first)).flatMap (excerptLine starts lines width start stop)

/-- The written form. -/
def render (d : Diagnostic) : String := String.intercalate "\n" d.renderLines

end Diagnostic

namespace Problem

/-- The diagnostic of a problem with a text. -/
def toDiagnostic (p : Problem) (source : String) : Diagnostic :=
  ⟨source, p.message, p.span, p.label⟩

/-- The form of a problem in traces. -/
def inspect (p : Problem) : String :=
  p.category.name ++ "(" ++ Quoted.inspectString p.message ++ ", " ++ toString p.span ++ ")"

end Problem

/-- A text with the diagnostics recorded about it, the latest last. -/
structure Report where
  /-- The text. -/
  source : String
  /-- What was recorded. -/
  diagnostics : Array Diagnostic := #[]

namespace Report

/-- The written form of a message about the text, which is not recorded. -/
def render (r : Report) (message : String) (span : Span) (label : String) : String :=
  Diagnostic.render ⟨r.source, message, span, label⟩

/-- The report with one more message. -/
def record (r : Report) (message : String) (span : Span) (label : String) : Report :=
  { r with diagnostics := r.diagnostics.push ⟨r.source, message, span, label⟩ }

/-- The report with one more problem. -/
def recordProblem (r : Report) (p : Problem) : Report := r.record p.message p.span p.label

/-- The latest diagnostic. -/
def last? (r : Report) : Option Diagnostic := r.diagnostics.back?

/-- The number of recorded diagnostics. -/
def size (r : Report) : Nat := r.diagnostics.size

end Report

end Curly
