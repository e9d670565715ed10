import Springboard.Emission.Piece
import Springboard.Error
import Springboard.Helper
import Springboard.NameSource
import Springboard.Sorted
import Springboard.Source.Surface
import Springboard.Tree
import Springboard.Tree.Abstract
import Springboard.Tree.Convert
import Springboard.Tree.Suspend
import Springboard.Tree.Trampoline

/-!
# The compiler

Each top-level form is converted, has its continuations made functions, and is suspended; then
all of them together become the entries of a program. Names of top-level forms have to be
distinct. On the way the compiler takes notes of what it does.
-/

namespace Springboard

/-- What can be chosen about a compilation. -/
structure Parameters where
  /-- The name of the definition that a top-level expression becomes. -/
  entry : Tree := .text "main"
  /-- The module that the helpers are imported from. -/
  runtime : Tree := .text defaultModule

namespace Parameters

/-- The names of the parameters. -/
def known : List String := ["entry", "runtime"]

/-- The parameters with one of them set. -/
def set (p : Parameters) (setting : String × Tree) : Parameters :=
  if setting.1 == "entry" then { p with entry := setting.2 }
  else if setting.1 == "runtime" then { p with runtime := setting.2 }
  else p

/-- The parameters given by some settings; it fails if one of them is not known. -/
def ofSettings (settings : List (String × Tree)) : Except Error Parameters :=
  let unknown := (settings.map Prod.fst).filter fun name => !known.contains name
  if unknown.isEmpty then .ok (settings.foldl set {})
  else .error (.fault (.unknownParameters (sortedTexts unknown)))

/-- The text that a parameter stands for: its own, or what displays it. -/
def textOf : Tree → Except Error String
  | .text s => .ok s
  | t => Error.ofFault t.display

/-- The text that names the module of the helpers. Of a tuple the only item names it. -/
def moduleName (p : Parameters) : Except Error String :=
  match p.runtime with
  | .tuple [t] => textOf t
  | .tuple _ => .error (.fault .mismatch)
  | t => textOf t

end Parameters

/-- The stages that each form goes through by itself. -/
inductive Stage
  | read | converted | abstracted | suspended
  deriving DecidableEq, Repr

/-- The word that marks a stage in a note. -/
def Stage.mark : Stage → String
  | read => "read"
  | converted => "cps"
  | abstracted => "abstract-k"
  | suspended => "thunkify"

/-- A note that the compiler takes. -/
inductive Note
  | compiling (name : String)
  /-- What a form has become. -/
  | reached (stage : Stage) (t : Tree)
  | trampolined (count : Nat)
  | writing (path : String)
  | noHistory (path : String)

namespace Note

/-- The line that shows a note. -/
def line : Note → Except Fault String
  | compiling name => .ok ("DEBUG:cpstco.compiler:compiling " ++ name)
  | reached stage t => do
    let shown ← t.display
    .ok ("DEBUG:cpstco.compiler:" ++ stage.mark ++ ": " ++ shown)
  | trampolined count =>
    .ok ("DEBUG:cpstco.compiler:trampolined " ++ Number.natText count ++ " definitions")
  | writing path => .ok ("INFO:cpstco.compiler:writing " ++ path)
  | noHistory path => .ok ("DEBUG:cpstco.cli:no history read from " ++ path)

end Note

/-- The state of a compilation: the names still to be handed out and the notes, the latest
first. -/
structure Progress where
  names : NameSource
  notes : List Note

/-- Compilations, whose notes remain when they fail. -/
abbrev Compile := EStateM Error Progress

namespace Compile

/-- Takes a note. -/
def note (n : Note) : Compile Unit :=
  modify fun p => { p with notes := n :: p.notes }

/-- A step that may fail. -/
def attempt {α : Type} : Except Error α → Compile α
  | .ok a => pure a
  | .error e => throw e

/-- A step that draws names. -/
def naming {α : Type} (step : Naming α) : Compile α := fun p =>
  match step p.names with
  | .ok (a, names) => .ok a { p with names := names }
  | .error e => .error e p

end Compile

open Compile

/-- Takes one definition through the stages. -/
def compileDefinition (applyK : String) (defn : Tree) : Compile Tree := do
  let converted ← naming defn.convertDefinition
  note (.reached .converted converted)
  let abstracted ← attempt (converted.abstractK applyK)
  note (.reached .abstracted abstracted)
  let suspended ← attempt abstracted.suspend
  note (.reached .suspended suspended)
  pure suspended

/-- Takes some forms through the stages, one after the other; `seen` are the names of the forms
before them. -/
def compileDefinitions (entry : Tree) (applyK : String) :
    List String → List Tree → Compile (List Tree)
  | _, [] => pure []
  | seen, form :: forms => do
    let defn ← attempt (form.wrapEntry entry)
    let name := defn.name?.getD ""
    if seen.contains name then throw (.malformed .duplicateDefinition none defn)
    note (.compiling name)
    let first ← compileDefinition applyK defn
    let rest ← compileDefinitions entry applyK (name :: seen) forms
    pure (first :: rest)

/-- The program of some forms. The forms may end with an error, which is met when all of them
have been gone through. -/
def compileReading (params : Parameters) (forms : Reading Tree) : Compile Tree := do
  let helpers ← naming fun names => .ok (helperNames names)
  let applyK := (helpers.lookup Helper.applyK.role).getD ""
  let definitions ← compileDefinitions params.entry applyK [] forms.items
  match forms.ending with
  | some e => throw e
  | none =>
    let program ← naming (Tree.toProgram helpers definitions)
    note (.trampolined definitions.length)
    pure program

/-- The program of some forms. -/
def compileForms (params : Parameters) (forms : List Tree) : Compile Tree :=
  compileReading params ⟨forms, none⟩

/-- The program of a text. All of the text is read first. -/
def compileText (params : Parameters) (text : String) : Compile Tree := do
  let forms ← attempt (Tree.readAll text)
  compileForms params forms

/-- Takes forms through the stages with a note of each stage, the first included. Names need not be
distinct. -/
def traceForms (entry : Tree) (applyK : String) : List Tree → Compile (List Tree)
  | [] => pure []
  | form :: forms => do
    note (.reached .read form)
    let defn ← attempt (form.wrapEntry entry)
    let first ← compileDefinition applyK defn
    let rest ← traceForms entry applyK forms
    pure (first :: rest)

/-- The source of the module of a text, with a note of each stage of each form. -/
def trace (params : Parameters) (text : String) : Compile String := do
  let helpers ← naming fun names => .ok (helperNames names)
  let applyK := (helpers.lookup Helper.applyK.role).getD ""
  let forms ← attempt (Tree.readAll text)
  let definitions ← traceForms params.entry applyK forms
  let program ← naming (Tree.toProgram helpers definitions)
  let source ← attempt params.moduleName
  attempt (program.emitProgram source)

/-- A compilation from a source of names, as a result without notes. -/
def Compile.result {α : Type} (c : Compile α) (names : NameSource) : Except Error α :=
  match c.run ⟨names, []⟩ with
  | .ok a _ => .ok a
  | .error e _ => .error e

/-- The source of the module that a text is compiled to. -/
def compileToSource (params : Parameters) (text : String) : Compile String := do
  let program ← compileText params text
  let source ← attempt params.moduleName
  attempt (program.emitProgram source)

end Springboard
