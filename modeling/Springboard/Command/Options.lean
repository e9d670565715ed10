import Springboard.Text.Digit

/-!
# Options of the command line

Arguments are told apart first: options, plain arguments, and the separator `--` behind which all
are plain. Then they are gone through from the left. A long option may be cut short as long as it
remains the only one that fits, and its value may follow it behind `=`. Short options that take no
value may be joined, and a value may be joined to the last.
-/

namespace Springboard.Command

/-- The options. -/
inductive Switch
  | help | histfile | entry | output | verbose | interactive | compile
  deriving DecidableEq, Repr

/-- What the arguments ask for. -/
structure Options where
  filename : Option String := none
  /-- The file that keeps the lines typed; none stands for the usual one. -/
  histfile : Option String := none
  entry : String := "main"
  output : Option String := none
  verbose : Bool := false
  interactive : Bool := false
  compile : Bool := false
  deriving DecidableEq, Repr

/-- Why the arguments are not gone through to the end. -/
inductive Refusal
  | helpWanted
  | misuse
  deriving DecidableEq, Repr

/-- The status that the program ends with when it refuses its arguments. -/
def Refusal.status : Refusal → Nat
  | helpWanted => 0
  | misuse => 2

namespace Switch

/-- All options. -/
def all : List Switch :=
  [help, histfile, entry, output, verbose, interactive, compile]

/-- The long spelling of an option, without its dashes. -/
def long : Switch → List Char
  | help => "help".toList
  | histfile => "histfile".toList
  | entry => "entry".toList
  | output => "output".toList
  | verbose => "verbose".toList
  | interactive => "interactive".toList
  | compile => "compile".toList

/-- The letter that is the short spelling of an option. -/
def short? : Switch → Option Char
  | help => some 'h'
  | output => some 'o'
  | verbose => some 'v'
  | interactive => some 'i'
  | compile => some 'C'
  | histfile | entry => none

/-- Whether an option takes a value. -/
def takesValue : Switch → Bool
  | histfile | entry | output => true
  | help | verbose | interactive | compile => false

/-- The option with the given letter. -/
def ofLetter? (c : Char) : Option Switch :=
  all.find? fun s => s.short? == some c

/-- The options whose long spelling starts as given. -/
def startingWith (text : List Char) : List Switch :=
  all.filter fun s => text.isPrefixOf s.long

end Switch

/-- How the options of one argument end. -/
inductive Ending
  | complete
  /-- The value of an option is the next argument. -/
  | wants (s : Switch)
  /-- What is left of the argument is no option. -/
  | stray
  /-- An option is given a value that it does not take. -/
  | misused
  deriving DecidableEq, Repr

/-- An argument that is told apart. -/
inductive Argument
  | separator
  | plain (text : String)
  /-- Options, with their values. -/
  | options (settings : List (Switch × String)) (ending : Ending)
  | unknown
  deriving DecidableEq, Repr

/-- What a short option and the text joined to it stand for. -/
def cluster (s : Switch) : List Char → List (Switch × String) × Ending
  | [] => if s.takesValue then ([], .wants s) else ([(s, "")], .complete)
  | '=' :: value =>
    if s.takesValue then ([(s, String.ofList value)], .complete) else ([], .misused)
  | c :: rest =>
    if s.takesValue then ([(s, String.ofList (c :: rest))], .complete)
    else if c == '-' then ([], .misused)
    else
      match Switch.ofLetter? c with
      | none => ([(s, "")], .stray)
      | some next =>
        let (settings, ending) := cluster next rest
        ((s, "") :: settings, ending)

/-- What a long option and the value set behind it stand for. -/
def withValue (s : Switch) : Option String → Argument
  | none => if s.takesValue then .options [] (.wants s) else .options [(s, "")] .complete
  | some value => if s.takesValue then .options [(s, value)] .complete else .options [] .misused

/-- Splits a text at the first `=`. -/
def splitAtEquals (text : List Char) : List Char × Option String :=
  match text.dropWhile (· != '=') with
  | [] => (text, none)
  | _ :: value => (text.takeWhile (· != '='), some (String.ofList value))

/-- Whether a text is written like a number below zero. -/
def isNegativeNumeral : List Char → Bool
  | '-' :: rest =>
    let whole := rest.takeWhile Text.isDigit
    match rest.dropWhile Text.isDigit with
    | [] => !whole.isEmpty
    | '.' :: places => !places.isEmpty && places.all Text.isDigit
    | _ => false
  | _ => false

/-- An argument that starts like an option and is none. -/
def noOption (text : List Char) : Argument :=
  if isNegativeNumeral text || text.contains ' ' then .plain (String.ofList text) else .unknown

/-- Tells apart an argument before the separator. It is refused if it is short for more than one
option. -/
def classify (arg : String) : Except Refusal Argument :=
  match arg.toList with
  | '-' :: '-' :: rest =>
    let (name, value) := splitAtEquals rest
    match Switch.all.find? fun s => s.long == name with
    | some s => .ok (withValue s value)
    | none =>
      match Switch.startingWith name with
      | [] => .ok (noOption arg.toList)
      | [s] => .ok (withValue s value)
      | _ => .error .misuse
  | '-' :: c :: rest =>
    match Switch.ofLetter? c with
    | some s =>
      let (settings, ending) := cluster s rest
      .ok (.options settings ending)
    | none => .ok (noOption arg.toList)
  | _ => .ok (.plain arg)

/-- Tells all arguments apart. -/
def classifyAll : List String → Except Refusal (List Argument)
  | [] => .ok []
  | "--" :: rest => .ok (.separator :: rest.map .plain)
  | arg :: rest => do
    let first ← classify arg
    let others ← classifyAll rest
    .ok (first :: others)

/-- Where the file name stands among the arguments gone through. -/
inductive Slot
  /-- It is still to come. -/
  | free
  /-- A separator was met before it. -/
  | opened
  /-- It was the last argument. -/
  | filled
  /-- It was met before. -/
  | closed
  deriving DecidableEq, Repr

/-- The options set so far, the place of the file name, and whether an argument has no use. -/
structure Progress where
  options : Options := {}
  slot : Slot := .free
  excess : Bool := false

/-- Sets an option. The options `interactive` and `compile` exclude each other. -/
def Options.set (o : Options) : Switch × String → Except Refusal Options
  | (.help, _) => .error .helpWanted
  | (.histfile, value) => .ok { o with histfile := some value }
  | (.entry, value) => .ok { o with entry := value }
  | (.output, value) => .ok { o with output := some value }
  | (.verbose, _) => .ok { o with verbose := true }
  | (.interactive, _) => if o.compile then .error .misuse else .ok { o with interactive := true }
  | (.compile, _) => if o.interactive then .error .misuse else .ok { o with compile := true }

namespace Progress

/-- Sets some options, one after the other. -/
def setAll (p : Progress) (settings : List (Switch × String)) : Except Refusal Progress := do
  let options ← settings.foldlM Options.set p.options
  .ok { p with options := options, slot := if p.slot = .filled then .closed else p.slot }

/-- Takes a plain argument. The first is the name of the file. -/
def takePlain (p : Progress) (text : String) : Progress :=
  match p.slot with
  | .free => { p with options := { p.options with filename := some text }, slot := .filled }
  | .opened => { p with options := { p.options with filename := some text }, slot := .closed }
  | .filled | .closed => { p with slot := .closed, excess := true }

/-- Takes the separator, which belongs to the file name next to it. -/
def takeSeparator (p : Progress) : Progress :=
  match p.slot with
  | .free => { p with slot := .opened }
  | .filled => { p with slot := .closed }
  | .opened | .closed => { p with excess := true }

/-- Goes through arguments. -/
def take : List Argument → Progress → Except Refusal Progress
  | [], p => .ok p
  | .separator :: rest, p => take rest p.takeSeparator
  | .plain text :: rest, p => take rest (p.takePlain text)
  | .unknown :: rest, p => do
    let p ← p.setAll []
    take rest { p with excess := true }
  | .options _ .misused :: _, _ => .error .misuse
  | .options settings .complete :: rest, p => do
    let p ← p.setAll settings
    take rest p
  | .options settings .stray :: rest, p => do
    let p ← p.setAll settings
    take rest { p with excess := true }
  | .options settings (.wants s) :: .plain value :: rest, p => do
    let p ← p.setAll (settings ++ [(s, value)])
    take rest p
  | .options _ (.wants _) :: _, _ => .error .misuse

end Progress

/-- The options that some arguments set. -/
def Options.ofArguments (args : List String) : Except Refusal Options := do
  let args ← classifyAll args
  let p ← Progress.take args {}
  if p.excess then .error .misuse else .ok p.options

end Springboard.Command
