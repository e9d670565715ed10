import Springboard.Command.Files
import Springboard.Command.Options
import Springboard.Session

/-!
# The command line

A command compiles a file to a module, or runs a file, or answers lines. It acts on a table of
files and two outputs, and it ends with a status.
-/

namespace Springboard.Command

/-- What a command acts on: the files, what was written to the two outputs, and whether notes are
written. -/
structure World where
  files : Files
  out : String := ""
  err : String := ""
  verbose : Bool := false

/-- Actions, whose effects remain when they fail. -/
abbrev Action := EStateM Stop World

/-- How a command ends. -/
inductive Outcome
  | exit (status : Nat)
  /-- The arguments were refused. -/
  | refused (refusal : Refusal)
  | stopped (stop : Stop)

/-- The effects of a command. -/
structure Report where
  outcome : Outcome
  world : World

/-! ### Output -/

/-- Writes to the two outputs. -/
def write (o : Session.Output) : Action Unit :=
  modify fun w => { w with out := w.out ++ o.out, err := w.err ++ o.err }

/-- The lines that show some notes; a note that cannot be shown has none. -/
def noteLines (notes : List Note) : String :=
  String.join (notes.filterMap fun n => (n.line.toOption).map (· ++ "\n"))

/-- Writes notes, if notes are to be written. -/
def log (notes : List Note) : Action Unit := do
  if (← get).verbose then write { err := noteLines notes }

/-- A step that may fail. -/
def attempt {α : Type} : Except Error α → Action α
  | .ok a => pure a
  | .error e => throw (.failed e)

/-- A step of a session. -/
def stepping {α : Type} (step : Step α) (s : Session) : Action (α × Session) := do
  match step.run { s with notes := [] } with
  | .ok a s =>
    log s.notes.reverse
    pure (a, s)
  | .error stop s =>
    log s.notes.reverse
    throw stop

/-! ### Compiling and running a file -/

/-- The text of a file that has to exist. -/
def readFile (name : String) : Action String := do
  match (← get).files.read? name with
  | some text => pure text
  | none => throw (.failed (.fault .missingFile))

/-- Writes a file into a directory that has to exist. -/
def writeFile (name text : String) : Action Unit := do
  match (← get).files.write? name text with
  | some files => modify fun w => { w with files := files }
  | none => throw (.failed (.fault .missingFile))

/-- The file that a module is written to: the one asked for, or else one named like the
source. -/
def destination (o : Options) (filename : String) : String :=
  match o.output with
  | some name => if name.isEmpty then withoutExtension filename ++ ".py" else name
  | none => withoutExtension filename ++ ".py"

/-- Compiles a file into a module. The text is read as far as the forms are compiled, and the file
for the module is there, and empty, before the module is written. -/
def compileTo (params : Parameters) (filename target : String) : Action Unit := do
  let text ← readFile filename
  let (program, _) ←
    stepping (Session.compiling (compileReading params (Tree.readStream text))) (.ofNamespace [])
  log [.writing target]
  writeFile target ""
  let library ← attempt params.moduleName
  let source ← attempt (program.emitProgram library)
  writeFile target source

/-- Compiles the file that the options name. -/
def compileFile (o : Options) : Action Unit := do
  let filename := o.filename.getD ""
  if filename.isEmpty then throw (.failed .noFileToCompile)
  compileTo { entry := .text o.entry } filename (destination o filename)

/-- Shows a value on a line, unless it is nothing. -/
def present (s : Session) (v : Machine.Value) : Action Unit := do
  if v.isNothing then pure ()
  else
    let shown ← attempt (Error.ofFault (s.showValue v))
    write { out := shown ++ "\n" }

/-- Loads a file and calls the function that the entry option names, if there is one. -/
def runFile (o : Options) (filename : String) (s : Session) : Action Session := do
  let text ← readFile filename
  let ((), s) ← stepping (Session.loadText { entry := .text o.entry } text) s
  match s.namespaceOf.lookup o.entry with
  | some .nothing | none => pure s
  | some f =>
    let (value, s) ← stepping (Session.call f []) s
    present s value
    pure s

/-! ### Answering lines -/

/-- What is written before a line is read. -/
def prompt : String := "cpstco > "

/-- Answers a line. -/
def answerLine (line : String) (s : Session) : Action Session := do
  let (output, s) := Session.respond line { s with notes := [] }
  log s.notes.reverse
  write output
  pure s

/-- Answers lines, each after a prompt, until they end. -/
def converse : List String → Session → Action Unit
  | [], _ => do
    write { out := prompt }
    write Session.farewell
  | line :: lines, s => do
    write { out := prompt }
    let s ← answerLine line s
    converse lines s

/-- The file of past lines that the options name. -/
def history? (o : Options) : Option String :=
  match o.histfile with
  | some name => if name.isEmpty then none else some name
  | none => none

/-- Notes whether the file of past lines is missing. -/
def openHistory (o : Options) : Action Unit := do
  match history? o with
  | some name =>
    if ((← get).files.read? name).isNone then log [.noHistory name]
  | none => pure ()

/-- Writes the file of past lines. Its directory is made; a bare name has none to make. -/
def closeHistory (o : Options) : Action Unit := do
  match history? o with
  | some name =>
    if (directoryPart name).isEmpty then throw (.failed (.fault .missingFile))
    modify fun w => { w with files := w.files.writeBelow name "" }
  | none => pure ()

/-! ### The whole command -/

/-- Does what comes before lines are answered. The result is the session to answer them in, if
any are to be answered. -/
def prepare (o : Options) : Action (Option Session) := do
  if o.compile then
    compileFile o
    return none
  let filename := o.filename.getD ""
  let start := Session.ofNamespace []
  if filename.isEmpty then return some start
  let s ← runFile o filename start
  return if o.interactive then some s.fork else none

/-- Does what the options ask for. -/
def perform (o : Options) (lines : List String) : Action Unit := do
  match ← prepare o with
  | none => pure ()
  | some s =>
    openHistory o
    converse lines s
    closeHistory o

/-- How a command ends that stopped: complaints are written out under the program's name, all
else is passed on. -/
def conclude (program : String) (w : World) (stop : Stop) : Report :=
  match stop with
  | .failed (.fault _) | .outOfFuel => ⟨.stopped stop, w⟩
  | .failed e =>
    match e.message? with
    | .ok message =>
      let line := baseName program ++ ": " ++ message.getD "" ++ "\n"
      ⟨.exit 1, { w with err := w.err ++ line }⟩
    | .error f => ⟨.stopped (.failed (.fault f)), w⟩

/-- Runs an action to its end. -/
def finish (program : String) (action : Action Unit) (w : World) : Report :=
  match action.run w with
  | .ok () w => ⟨.exit 0, w⟩
  | .error stop w => conclude program w stop

/-- The lines of a text; what follows the last line end is a line unless it is empty. -/
def linesOf (text : String) : List String :=
  let lines := Text.parts '\n' text
  if lines.getLast?.getD "" == "" then lines.dropLast else lines

/-- Runs the program of the given name with arguments, files and input. -/
def run (program : String) (args : List String) (files : Files) (input : String) : Report :=
  match Options.ofArguments args with
  | .error refusal => ⟨.refused refusal, { files := files }⟩
  | .ok o => finish program (perform o (linesOf input)) { files := files, verbose := o.verbose }

end Springboard.Command
