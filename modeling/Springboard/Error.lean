import Springboard.Fault
import Springboard.Source.Position
import Springboard.Text.Quoted
import Springboard.Tree
import Springboard.Tree.Display

/-!
# Errors

Everything that can be reported: complaints about the shape of a program, breaches of what the
stages of the compiler promise each other, texts that cannot be read, wrong use of the command
line, and faults. An error is a cause; its wording is given by `Error.message`.
-/

namespace Springboard

/-- The stages that go over trees kind by kind. -/
inductive Pass
  | conversion | abstraction | suspension | trampolining | emission | evaluation
  deriving DecidableEq, Repr

/-- The name a pass reports itself by. -/
def Pass.name : Pass → String
  | conversion => "CPSConverter"
  | abstraction => "ContinuationAbstractor"
  | suspension => "Thunkifier"
  | trampolining => "Trampoliner"
  | emission => "Emitter"
  | evaluation => "Evaluator"

/-- Complaints about the shape of a program. -/
inductive Complaint
  | literalNotNumber
  | variableNotName
  | notOperator
  | parameterNotName
  | unnamedDefinition
  | unnamedContinuation
  | cannotRename
  | noRule (pass : Pass)
  | seriousInTrivial
  | notDefinition
  | nestedDefinition
  | duplicateDefinition
  | emptyApplication
  | operandCount (op : String)
  | conditionalShape
  | functionShape (head : String)
  | definitionShape
  | parameterList (head : String)
  | noOperands (head : String)
  | noMeaning
  deriving DecidableEq, Repr

/-- The wording of a complaint about a tree. -/
def Complaint.wording (subject : Tree) : Complaint → String
  | literalNotNumber => "literal must be boolean or number"
  | variableNotName => "variable must be a name"
  | notOperator => "not a trivial operator"
  | parameterNotName => "parameter must be a name"
  | unnamedDefinition => "definition must be named"
  | unnamedContinuation => "continuation must bind a name"
  | cannotRename => "cannot rename within"
  | noRule pass => pass.name ++ " has no rule for " ++ subject.sortName
  | seriousInTrivial => "serious expression in trivial position"
  | notDefinition => "not a definition"
  | nestedDefinition => "definition outside of top level"
  | duplicateDefinition => "duplicate definition"
  | emptyApplication => "empty application"
  | operandCount op => "wrong number of operands to " ++ op
  | conditionalShape => "if requires test, consequent and alternative"
  | functionShape head => head ++ " requires parameters and a body"
  | definitionShape => "defn requires a name, parameters and a body"
  | parameterList head => head ++ " parameters must be a list of symbols"
  | noOperands head => head ++ " requires at least one operand"
  | noMeaning => "cannot translate"

/-- Breaches of what one stage promises the next. -/
inductive Breach
  | notContinuation
  | unconverted
  | stranded
  | notConverted
  | notSuspended
  | alreadyTrampolined
  deriving DecidableEq, Repr

/-- The wording of a breach found at a tree. -/
def Breach.wording (subject : Tree) : Breach → String
  | notContinuation => "not a continuation"
  | unconverted => subject.sortName ++ " should not survive to thunkification"
  | stranded => subject.sortName ++ " cannot be emitted"
  | notConverted => "definition was not CPS converted"
  | notSuspended => "definition was not thunkified"
  | alreadyTrampolined => "definition is already trampolined"

/-- The two kinds of brackets. -/
inductive Bracket
  | round | square
  deriving DecidableEq, Repr

namespace Bracket

/-- The opening bracket of a kind. -/
def opener : Bracket → Char
  | round => '('
  | square => '['

/-- The closing bracket of a kind. -/
def closer : Bracket → Char
  | round => ')'
  | square => ']'

end Bracket

/-- Reasons why a text cannot be read. -/
inductive Unreadable
  | stringLiteral
  | unexpectedClose (bracket : Bracket)
  | closedBy (opened closed : Bracket)
  | unterminated
  | formCount (found : Nat)
  deriving DecidableEq, Repr

/-- The wording of a reason why a text cannot be read. -/
def Unreadable.wording : Unreadable → String
  | stringLiteral => "strings are not supported"
  | unexpectedClose bracket => "unexpected " ++ bracket.closer.toString
  | closedBy opened closed => opened.opener.toString ++ " closed by " ++ closed.closer.toString
  | unterminated => "unterminated list"
  | formCount found => "expected exactly one form, found " ++ Number.natText found

/-- The causes of failure. -/
inductive Error
  /-- A program has the wrong shape, at a tree and perhaps at a place of the source text. -/
  | malformed (complaint : Complaint) (place : Option Position) (subject : Tree)
  /-- A stage was handed what the stage before it should not produce. -/
  | breach (breach : Breach) (subject : Tree)
  /-- A text cannot be read. -/
  | unreadable (reason : Unreadable) (place : Option Position)
  /-- Compilation was asked for without a file. -/
  | noFileToCompile
  /-- A fault of execution. -/
  | fault (fault : Fault)
  deriving Inhabited

/-- Why a run has no value: it failed, or it was cut short. -/
inductive Stop
  | failed (error : Error)
  | outOfFuel
  deriving Inhabited

/-- The words that name a place, behind a message. -/
def Position.suffix : Option Position → String
  | some p => " at line " ++ Number.natText p.line ++ ", column " ++ Number.natText p.column
  | none => ""

/-- A message followed by the tree it is about, unless that is nothing. -/
def withSubject (message : String) : Tree → Except Fault String
  | .nothing => .ok message
  | subject => do
    let shown ← subject.display
    .ok (message ++ ": " ++ shown)

namespace Fault

/-- The name under which a fault is reported. -/
def name : Fault → String
  | mismatch | arity _ _ _ | unknownParameters _ => "TypeError"
  | unbound _ => "NameError"
  | zeroDivision => "ZeroDivisionError"
  | overflow => "OverflowError"
  | tooManyDigits => "ValueError"
  | missingKey => "KeyError"
  | missingAttribute | immutable _ => "AttributeError"
  | repeatedParameter => "SyntaxError"
  | missingFile => "FileNotFoundError"

/-- The wording of a fault, for those that have one. -/
def message? : Fault → Option String
  | arity name wanted given =>
    some (name ++ " takes " ++ Number.natText wanted ++ " arguments, " ++ Number.natText given ++
      " given")
  | unbound name => some ("name " ++ Text.quoted name ++ " is not defined")
  | immutable kind => some (kind ++ " is immutable")
  | unknownParameters names =>
    some ("unknown compiler parameters: " ++ ", ".intercalate names)
  | _ => none

end Fault

namespace Error

/-- The name under which an error is reported. -/
def name : Error → String
  | malformed _ _ _ => "MalformedExpression"
  | breach _ _ => "InternalInvariantViolation"
  | unreadable _ _ => "ReaderSyntaxError"
  | noFileToCompile => "CLIException"
  | fault f => f.name

/-- The wording of an error, for those that have one. It fails when the tree in question cannot
be shown. -/
def message? : Error → Except Fault (Option String)
  | malformed complaint place subject =>
    (withSubject (complaint.wording subject ++ Position.suffix place) subject).map some
  | breach b subject => (withSubject (b.wording subject) subject).map some
  | unreadable reason place => .ok (some (reason.wording ++ Position.suffix place))
  | noFileToCompile => .ok (some "--compile requires that FILENAME is specified")
  | fault f => .ok f.message?

/-- A fault is an error. -/
def ofFault {α : Type} : Except Fault α → Except Error α
  | .ok a => .ok a
  | .error f => .error (.fault f)

end Error

end Springboard
