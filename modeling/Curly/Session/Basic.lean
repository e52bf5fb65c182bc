import Curly.Problem.Diagnostic
import Curly.Session.Trace
import Curly.Tree.Outline

/-!
# Sessions

A session takes one text after another. What one text binds at top level, the next ones see, also when
a text fails half-way.

## Main definitions

* `Session`: the bindings so far and how long loops may run.
* `Session.submit`: reads a text and runs it.
* `Session.outline`: reads a text and shows its tree.
* `Verdict`: how a text fared, for those who only want to know what went wrong.
-/

namespace Curly

/-- The state of a session. -/
structure Session where
  /-- The bindings of the top level. -/
  bindings : Bindings := []
  /-- The node that the latest run began last. -/
  current : Option Tree := none
  /-- How long loops may run. -/
  limits : Limits := { loop := none }
  /-- Whether traces are wanted. -/
  tracing : Bool := false

/-- How a text fares that is run. -/
inductive Reply where
  /-- It has a value. -/
  | value (v : Value)
  /-- It fails. -/
  | failure (d : Diagnostic)
  /-- It runs for longer than anyone waits. -/
  | unfinished

/-- How a text fares that is only read. -/
inductive OutlineReply where
  /-- It has a tree, whose outline this is. -/
  | outline (lines : List String)
  /-- It cannot be read. -/
  | failure (d : Diagnostic)
  /-- It has a tree that is nested too deeply to be shown. -/
  | tooDeep

namespace Session

/-- The headline of faults that are not the author's. -/
def internalLabel : String := "InternalError"

/-- What is said about a fault that is not the author's, at the node that was begun last. -/
def internalDiagnostic (source : String) (current : Option Tree) (message : String) : Diagnostic :=
  ⟨source, message, (current.map Tree.span).getD (.ofLength 0 source.length), internalLabel⟩

/-- What is said about a text that could not be read. Faults that no text brings about under the table
of the language are told apart by their headline. -/
def readDiagnostic (source : String) (fault : ReadFault) : Diagnostic :=
  match fault.toProblem? source.length with
  | some p => p.toDiagnostic source
  | none => internalDiagnostic source none "the token table is defective"

/-- What is said about a text that could not be evaluated to the end, given the node that was begun last.
Nesting that is too deep is an error of the whole text if nothing narrower is known. -/
def runReply (source : String) (current : Option Tree) (fault : RunFault) : Reply :=
  match fault with
  | .error e => .failure (e.toProblem.toDiagnostic source)
  | .tooDeep =>
    .failure (RuntimeError.toProblem ⟨.nestedTooDeeply, .ofLength 0 source.length⟩
      |>.toDiagnostic source)
  | .unfinished => .unfinished
  | .notABlock | .unwritable _ | .noArithmetic _ =>
    .failure (internalDiagnostic source current (fault.hostMessage?.getD ""))

/-- The state in which a text is run. -/
def start (s : Session) : Run :=
  ⟨[s.bindings], none, if s.tracing then some [] else none⟩

/-- The session after a run. -/
def afterRun (s : Session) (r : Run) : Session :=
  { s with bindings := r.scopes.headD [], current := r.current }

/-- The result of submitting a text. -/
structure Turn where
  /-- The session afterwards. -/
  session : Session
  /-- How the text fared. -/
  reply : Reply
  /-- The trace, if traces are wanted. -/
  trace : List String

/-- Reads a text as a unit and runs it at top level. -/
def submit (unit : TextUnit) (s : Session) (source : String) : Turn :=
  match Tree.read unit source.toList with
  | .error fault c =>
    ⟨{ s with current := none }, .failure (readDiagnostic source fault),
      if s.tracing then c.trace else []⟩
  | .ok t c =>
    let read := if s.tracing then c.trace ++ [traceLine ("parsed " ++ toString t.span)] else []
    match t.run s.limits s.start with
    | .ok v r => ⟨s.afterRun r, .value v, read ++ r.trace⟩
    | .error fault r => ⟨s.afterRun r, runReply source r.current fault, read ++ r.trace⟩

/-- Submits statements, as they are typed. -/
def line (s : Session) (source : String) : Turn := s.submit .statements source

/-- Submits a program, as it stands in a file. -/
def script (s : Session) (source : String) : Turn := s.submit .program source

/-- Reads a text as a unit and shows its tree, together with the trace of the reading. -/
def outline (unit : TextUnit) (tracing : Bool) (source : String) : OutlineReply × List String :=
  match Tree.read unit source.toList with
  | .error fault c => (.failure (readDiagnostic source fault), if tracing then c.trace else [])
  | .ok t c =>
    let trace := if tracing then c.trace else []
    match t.outline? Tree.standardWidth 0 with
    | some lines => (.outline lines, trace)
    | none => (.tooDeep, trace)

end Session

/-- How a text fared. -/
structure Verdict where
  /-- Whether it failed. -/
  failed : Bool
  /-- What is said about the failure. -/
  message : Option String := none
  /-- What is said about the failure, with its place. -/
  diagnostic : Option Diagnostic := none

namespace Verdict

/-- What is said about a failure: the diagnostic, or else the message, or else only that something
failed. There is nothing to say about a success. -/
def errorText (v : Verdict) : String :=
  if v.failed then
    match v.diagnostic with
    | some d => d.render
    | none =>
      match v.message with
      | some m => if m = "" then "Unknown error" else m
      | none => "Unknown error"
  else ""

end Verdict

end Curly
