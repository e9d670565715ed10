import Springboard.Compiler
import Springboard.Machine.Load

/-!
# Sessions

A session holds the namespaces that programs were loaded into and what running them changed.
Texts are compiled, loaded and called in it, and lines are answered one at a time. What a line
did before it failed remains.
-/

namespace Springboard

/-- The state between two texts: the namespaces, which of them is the session's own, the state of
the machine, and the notes taken so far, the latest first. -/
structure Session where
  spaces : List Machine.Namespace
  home : Nat
  machine : Machine.State
  notes : List Note

/-- Steps of a session, whose effects remain when they fail. -/
abbrev Step := EStateM Stop Session

namespace Session

/-- A session that starts with some values of global names. -/
def ofNamespace (ns : Machine.Namespace) : Session :=
  ⟨[ns], 0, .start, []⟩

/-- The session's own namespace. -/
def namespaceOf (s : Session) : Machine.Namespace :=
  s.spaces[s.home]?.getD []

/-- The session with its own namespace replaced. -/
def withNamespace (s : Session) (ns : Machine.Namespace) : Session :=
  { s with spaces := s.spaces.set s.home ns }

/-- The session that goes on in a copy of its namespace. Functions loaded so far keep to the
namespace they were loaded into. -/
def fork (s : Session) : Session :=
  { s with spaces := s.spaces ++ [s.namespaceOf], home := s.spaces.length }

/-- A step that may fail. -/
def attempt {α : Type} : Except Error α → Step α
  | .ok a => pure a
  | .error e => throw (.failed e)

/-- A compilation with a source of names of its own. -/
def compiling {α : Type} (c : Compile α) : Step α := fun s =>
  match c.run ⟨.default, s.notes⟩ with
  | .ok a p => .ok a { s with notes := p.notes }
  | .error e p => .error (.failed e) { s with notes := p.notes }

/-- A run of the machine. -/
def running {α : Type} (r : Machine.Run α) : Step α := fun ⟨spaces, home, machine, notes⟩ =>
  match r.run machine with
  | .ok a machine => .ok a ⟨spaces, home, machine, notes⟩
  | .error e machine => .error e ⟨spaces, home, machine, notes⟩

/-- Loads a compiled program into the session's own namespace. -/
def load (program : Tree) : Step Unit := do
  let m ← attempt (Machine.Module.ofProgram program)
  let s ← get
  let ns ← running (m.load s.home s.namespaceOf)
  modify fun s => s.withNamespace ns

/-- Compiles a text and loads the program. -/
def loadText (params : Parameters) (text : String) : Step Unit := do
  let program ← compiling do
    let program ← compileText params text
    let source ← Compile.attempt params.moduleName
    let _ ← Compile.attempt (program.emitProgram source)
    pure program
  load program

/-- Calls a function. -/
def call (f : Machine.Value) (args : List Machine.Value) : Step Machine.Value := do
  let s ← get
  running (Machine.call s.spaces Machine.ampleFuel f args)

/-- The value of a global name of the session. -/
def global? (name : String) : Step (Option Machine.Value) := do
  pure ((← get).namespaceOf.lookup name)

/-! ### Lines -/

/-- The name of the definition that an expression on a line becomes. -/
def lineEntry : String := "repl_entry"

/-- Compiles and runs the forms of a line. Its value is that of its expression, or nothing if all
forms are definitions. -/
def evalLine (line : String) : Step Machine.Value := do
  let forms ← attempt (Tree.readAll line)
  if forms.isEmpty then return .nothing
  let program ← compiling (compileForms { entry := .text lineEntry } forms)
  let _ ← attempt (program.emitProgram defaultModule)
  load program
  if forms.all Tree.isDefinition then return .nothing
  match ← global? lineEntry with
  | some f => call f []
  | none => throw (.failed (.fault .missingKey))

/-- What is written to the two outputs. -/
structure Output where
  out : String := ""
  err : String := ""

/-- The text that shows a value. A flag is shown as it is at the time. -/
def showValue (s : Session) : Machine.Value → Except Fault String
  | .number n => n.text
  | .nothing => .ok "None"
  | .flag index => .ok (if s.machine.isDone index then "<flag done>" else "<flag running>")
  | _ => .ok "<function>"

/-- The text that reports why a line failed. Complaints about a program are written out. -/
def report : Stop → String
  | .outOfFuel => "Traceback: RecursionError\n"
  | .failed e =>
    let wording := match e.message? with
      | .ok message => message.getD ""
      | .error _ => "<exception str() failed>"
    match e with
    | .malformed _ _ _ | .breach _ _ => "cpstco." ++ e.name ++ ": " ++ wording ++ "\n\n"
    | .unreadable _ _ => "cpstco.parse." ++ e.name ++ ": " ++ wording ++ "\n\n"
    | _ => "Traceback: " ++ e.name ++ "\n"

/-- The name that the value of the last line is kept under. -/
def lastName : String := "_"

/-- Answers a line: it is run, its value is kept and shown unless it is nothing. -/
def answer (line : String) : Step Output := do
  let value ← evalLine line
  modify fun s => s.withNamespace (s.namespaceOf.define lastName value)
  if value.isNothing then pure {}
  else
    let shown ← attempt (Error.ofFault ((← get).showValue value))
    pure { out := shown ++ "\n" }

/-- Answers a line, reporting failure. -/
def respond (line : String) (s : Session) : Output × Session :=
  match (answer line).run s with
  | .ok output s => (output, s)
  | .error stop s => ({ err := report stop }, s)

/-- What is written when the lines end. -/
def farewell : Output := { err := "\n" }

/-- Answers lines until they end. A line that is missing is an interruption, and an empty one,
without even a line end, is the end of the input: both end the session. -/
def respondAll : List (Option String) → Session → List Output × Session
  | some line :: lines, s =>
    if line.isEmpty then ([], s)
    else
      let (output, s) := respond line s
      let (outputs, s) := respondAll lines s
      (output :: outputs, s)
  | _, s => ([], s)

end Session

end Springboard
