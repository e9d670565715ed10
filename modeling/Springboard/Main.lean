import Springboard.Command

/-!
# The program

Joins the command line to the files and streams of the system. The file that a command is about
is read before it starts, and what it has written is passed on after each step.
-/

namespace Springboard.Main

open Command

/-- The name under which the program reports. -/
def programName : String := "springboard"

/-- What is shown when the arguments are refused. -/
def usage : String :=
  "usage: springboard [-h] [--histfile HISTFILE] [--entry ENTRY] [-o OUTPUT] [-v] [-i | -C] " ++
    "[filename]\n"

/-- The text of a file, if it can be read. -/
def readText? (name : String) : IO (Option String) := do
  try
    let text ← IO.FS.readFile name
    return some text
  catch _ => return none

/-- Whether a directory, named with a slash behind it, can be opened. -/
def isDirectory (name : String) : IO Bool := do
  try
    let _ ← IO.FS.Handle.mk name .read
    return true
  catch _ => return false

/-- The files that the options name and that exist, with the directory that is written to. -/
def filesFor (o : Options) : IO Files := do
  let mut found := []
  for name in [o.filename, history? o].filterMap id do
    if let some text ← readText? name then
      found := (name, text) :: found
  let directory := directoryPart (destination o (o.filename.getD ""))
  let exists? ← isDirectory directory
  return { Files.ofList found with
    directories := if exists? then [Path.ofText directory] else [] }

/-- Passes on what was written, and leaves nothing written. -/
def flush (w : World) : IO World := do
  IO.print w.out
  (← IO.getStdout).flush
  IO.eprint w.err
  return { w with out := "", err := "" }

/-- Answers the lines of the standard input. -/
partial def answerInput (s : Session) (w : World) : IO World := do
  let w ← flush { w with out := prompt }
  let line ← (← IO.getStdin).getLine
  if line.isEmpty then flush { w with err := Session.farewell.err }
  else
    match (answerLine line s).run w with
    | .ok s w => answerInput s (← flush w)
    | .error _ w => flush w

/-- Writes the files that a command has written. -/
def store (before : Files) (w : World) : IO Unit := do
  for (name, text) in w.files.toList do
    if before.toList.lookup name != some text then
      if !(directoryPart name).isEmpty then IO.FS.createDirAll (directoryPart name)
      IO.FS.writeFile name text

/-- Ends a command with its status. -/
def close (before : Files) (report : Report) : IO UInt32 := do
  let w ← flush report.world
  store before w
  match report.outcome with
  | .exit status => return status.toUInt32
  | .refused refusal => return refusal.status.toUInt32
  | .stopped (.failed e) =>
    IO.eprintln e.name
    return 1
  | .stopped .outOfFuel => return 1

/-- Runs a command whose options are known. -/
def execute (o : Options) : IO UInt32 := do
  let files ← filesFor o
  let start : World := { files := files, verbose := o.verbose }
  match (prepare o).run start with
  | .error stop w => close files (conclude programName w stop)
  | .ok none w => close files ⟨.exit 0, w⟩
  | .ok (some s) w =>
    let w ← match (openHistory o).run w with
      | .ok () w => answerInput s (← flush w)
      | .error _ w => flush w
    close files (finish programName (closeHistory o) w)

end Springboard.Main

open Springboard in
/-- Runs the program. -/
def main (args : List String) : IO UInt32 := do
  match Command.Options.ofArguments args with
  | .ok o => Main.execute o
  | .error refusal =>
    IO.eprint Main.usage
    return refusal.status.toUInt32
