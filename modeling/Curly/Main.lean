import Curly.Command.Basic

/-!
# The program

The outer layer: arguments, environment, files and typed lines come from the outside, and what the
library answers goes there.
-/

namespace Curly.Program

/-- Prints in order. -/
def print (outputs : List Command.Output) : IO Unit := do
  for output in outputs do
    match output with
    | .result text => IO.print text
    | .complaint text => IO.eprint text
  (← IO.getStdout).flush

/-- The exit code of an ending. What has no exit code of its own is explained first. -/
def conclude : Command.Ending → IO UInt32
  | .exit code => return code.toUInt32
  | .tooDeep => do
    IO.eprintln "the tree is nested too deeply to be shown"
    return 1
  | .notText => do
    IO.eprintln "the file does not hold text"
    return 1
  | .unreachable fault => do
    IO.eprintln fault.message
    return 1
  | .unfinished => do
    IO.eprintln "the evaluation does not come to an end"
    return 1

/-- Answers typed lines one at a time until there are no more, or until one ends the program. -/
partial def converse (outlines : Bool) (session : Session) (waiting : List (List Char)) :
    IO UInt32 := do
  print [Command.promptText]
  let lines ←
    if waiting.isEmpty then
      let typed ← (← IO.getStdin).getLine
      pure (Newlines.typedLines (Newlines.unify typed.toList))
    else pure waiting
  match lines with
  | [] => do
    print [Command.farewell]
    return 0
  | line :: rest => do
    let answer := Command.respond outlines session line
    print answer.outputs
    match answer.next with
    | .inl session => converse outlines session rest
    | .inr ending => conclude ending

/-- The contents of a file. A folder can be opened but not read, and the complaint about the reading
names no file. Faults that say nothing about the name are passed on. -/
def readFile (name : String) : IO (Except FileFault ByteArray) := do
  try
    return .ok (← IO.FS.readBinFile (Folder.plainPath name))
  catch error =>
    match error with
    | .noFileOrDirectory .. => return .error .notFound
    | .inappropriateType none .. => return .error .notFound
    | .inappropriateType (some _) .. => return .error .notAFolder
    | .invalidArgument .. => return .error .nameTooLong
    | _ => throw error

/-- Runs the program. -/
def run (args : List String) : IO UInt32 := do
  let settings := Command.Settings.ofEnvironment (← IO.getEnv "BRACE_LOOP_LIMIT")
    (← IO.getEnv "BRACE_DEBUG")
  let command := Command.ofArgs args
  match command with
  | .prompt outlines => do
    print Command.banner
    converse outlines settings.session []
  | .runFile name | .outlineFile name => do
    let contents ← readFile name
    let transcript := Command.run settings (fun _ => contents) "" command
    print transcript.outputs
    conclude transcript.ending
  | _ => do
    let transcript := Command.run settings (fun _ => .error .notFound) "" command
    print transcript.outputs
    conclude transcript.ending

end Curly.Program

/-- The command line. -/
def main (args : List String) : IO UInt32 := Curly.Program.run args
