import Curly.Command.Folder
import Curly.Session.Basic
import Curly.Text.Newlines
import Curly.Text.Numeral

/-!
# The command line

What the program does with its arguments, its files and what is typed. Everything here is a value: what
is printed, in order, and how the program ends.

## Main definitions

* `Command.ofArgs`: what the arguments ask for.
* `Command.Settings.ofEnvironment`: what the environment asks for.
* `Command.respond`: the answer to one typed line.
* `Command.run`: a whole run of the program.
-/

namespace Curly

/-- What the arguments ask for. -/
inductive Command where
  /-- Answer typed lines with their values, or with their trees. -/
  | prompt (outlines : Bool)
  /-- Run a file. -/
  | runFile (name : String)
  /-- Show the tree of a file. -/
  | outlineFile (name : String)
  /-- Say how the program is used. -/
  | help
  /-- The arguments make no sense. -/
  | misuse
deriving DecidableEq

namespace Command

/-- What the arguments ask for. The first may be a command, in capitals or not. -/
def ofArgs : List String → Command
  | [] => prompt false
  | first :: rest =>
    let word := first.toLower
    if word = "help" ∨ word = "h" then help
    else if word = "ast" ∨ word = "a" then
      match rest with
      | [] => prompt true
      | name :: _ => outlineFile name
    else if rest.isEmpty then runFile first
    else misuse

/-- What the environment asks for. -/
structure Settings where
  /-- The bound on the rounds of a loop. -/
  loopLimit : Option Int
  /-- Whether a trace is wanted. -/
  tracing : Bool

/-- The settings that two variables of the environment give: the first is a positive integer or
counts for nothing, the second asks for a trace unless it is empty. -/
def Settings.ofEnvironment (loopLimit debug : Option String) : Settings where
  loopLimit := (loopLimit.bind fun s => Numeral.integer? s.toList).filter fun n => 0 < n
  tracing := debug.any fun s => s ≠ ""

/-- The session that a run of the program begins with. -/
def Settings.session (settings : Settings) : Session where
  limits := { loop := settings.loopLimit }
  tracing := settings.tracing

/-- Something printed. -/
inductive Output where
  /-- As a result. -/
  | result (text : String)
  /-- As a complaint. -/
  | complaint (text : String)
deriving DecidableEq

/-- A printed line. -/
def resultLine (text : String) : Output := .result (text ++ "\n")

/-- A printed line of complaint. -/
def complaintLine (text : String) : Output := .complaint (text ++ "\n")

/-- How the program ends. -/
inductive Ending where
  /-- With an exit code. -/
  | exit (code : Nat)
  /-- A tree was nested too deeply to be shown. -/
  | tooDeep
  /-- A file does not hold text. -/
  | notText
  /-- A file could not be reached, and not for want of a file of its name. -/
  | unreachable (fault : FileFault)
  /-- A loop ran for longer than anyone waits. -/
  | unfinished
deriving DecidableEq

/-- What is printed, and how the program ends. -/
structure Transcript where
  /-- What is printed, in order. -/
  outputs : List Output
  /-- How the program ends. -/
  ending : Ending

namespace Transcript

/-- What is printed as results. -/
def results (t : Transcript) : String :=
  String.join (t.outputs.filterMap fun
    | .result text => some text
    | .complaint _ => none)

/-- What is printed as complaints. -/
def complaints (t : Transcript) : String :=
  String.join (t.outputs.filterMap fun
    | .result _ => none
    | .complaint text => some text)

/-- The transcript with something printed before it. -/
def after (outputs : List Output) (t : Transcript) : Transcript := ⟨outputs ++ t.outputs, t.ending⟩

end Transcript

/-- How the program is used. -/
def usage : String :=
  "Usage:\n" ++
  "  brace                  start the interactive prompt\n" ++
  "  brace <file>           run a file\n" ++
  "  brace ast|a [<file>]   print the syntax tree of a file, or of each line typed at the prompt\n" ++
  "  brace help|h           show this help\n"

/-- What is printed before the first line is typed. -/
def banner : List Output :=
  [resultLine "brace REPL v0.1", resultLine "Type 'exit' or press Ctrl+D to quit."]

/-- What is printed before each line is typed. -/
def promptText : Output := .result ">: "

/-- What is printed when no more lines are typed. -/
def farewell : Output := .result "\nExiting.\n"

/-- The answer to a typed line, and how to go on: with a session, or by ending. -/
structure Answer where
  /-- What is printed. -/
  outputs : List Output
  /-- How to go on. -/
  next : Session ⊕ Ending

/-- The answer to a line that asks for its value. -/
def answerValue (s : Session) (source : String) : Answer :=
  let turn := s.line source
  let trace := turn.trace.map complaintLine
  match turn.reply with
  | .value v => ⟨trace ++ [resultLine v.display], .inl turn.session⟩
  | .failure d => ⟨trace ++ [complaintLine d.render], .inl turn.session⟩
  | .unfinished => ⟨trace, .inr .unfinished⟩

/-- The answer to a line that asks for its tree. -/
def answerOutline (s : Session) (source : String) : Answer :=
  let (reply, lines) := Session.outline .statements s.tracing source
  let trace := lines.map complaintLine
  match reply with
  | .outline lines => ⟨trace ++ [resultLine (String.intercalate "\n" lines)], .inl s⟩
  | .failure d => ⟨trace ++ [complaintLine d.render], .inl s⟩
  | .tooDeep => ⟨trace, .inr .tooDeep⟩

/-- The answer to a typed line. Blank characters around it count for nothing, a blank line is passed
over, and the word `exit` ends the program. -/
def respond (outlines : Bool) (s : Session) (typed : List Char) : Answer :=
  let text := String.ofList (Blank.trim typed)
  if text = "" then ⟨[], .inl s⟩
  else if text = "exit" then ⟨[], .inr (.exit 0)⟩
  else if outlines then answerOutline s text
  else answerValue s text

/-- The conversation over typed lines, up to the last one. -/
def converse (outlines : Bool) : Session → List (List Char) → Transcript
  | _, [] => ⟨[promptText, farewell], .exit 0⟩
  | s, typed :: rest =>
    let answer := respond outlines s typed
    match answer.next with
    | .inl s => (converse outlines s rest).after (promptText :: answer.outputs)
    | .inr ending => ⟨promptText :: answer.outputs, ending⟩

/-- Runs the text of a file. Only what goes wrong is printed. -/
def runText (s : Session) (source : String) : Transcript :=
  let turn := s.script source
  let trace := turn.trace.map complaintLine
  match turn.reply with
  | .value _ => ⟨trace, .exit 0⟩
  | .failure d => ⟨trace ++ [complaintLine d.render], .exit 1⟩
  | .unfinished => ⟨trace, .unfinished⟩

/-- Shows the tree of the text of a file. -/
def outlineText (settings : Settings) (source : String) : Transcript :=
  let (reply, lines) := Session.outline .program settings.tracing source
  let trace := lines.map complaintLine
  match reply with
  | .outline lines => ⟨trace ++ [resultLine (String.intercalate "\n" lines)], .exit 0⟩
  | .failure d => ⟨trace ++ [complaintLine d.render], .exit 1⟩
  | .tooDeep => ⟨trace, .tooDeep⟩

/-- The text in a file, with its line ends unified. -/
def decode? (contents : ByteArray) : Option String :=
  (String.fromUTF8? contents).map fun s => String.ofList (Newlines.unify s.toList)

/-- Does something with the text of a file, given what became of reading the file. -/
def withFile (name : String) (contents : Except FileFault ByteArray)
    (act : String → Transcript) : Transcript :=
  match contents with
  | .error .notFound => ⟨[complaintLine ("Error: file not found: " ++ name)], .exit 1⟩
  | .error fault => ⟨[], .unreachable fault⟩
  | .ok bytes =>
    match decode? bytes with
    | none => ⟨[], .notText⟩
    | some source => act source

/-- A whole run of the program, given how files are read and what is typed. -/
def run (settings : Settings) (file : String → Except FileFault ByteArray) (typed : String) :
    Command → Transcript
  | help => ⟨[resultLine usage], .exit 0⟩
  | misuse => ⟨[complaintLine usage], .exit 2⟩
  | runFile name => withFile name (file name) (runText settings.session)
  | outlineFile name => withFile name (file name) (outlineText settings)
  | prompt outlines =>
    (converse outlines settings.session
      (Newlines.typedLines (Newlines.unify typed.toList))).after banner

end Command

end Curly
