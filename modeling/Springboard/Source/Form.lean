import Springboard.Error
import Springboard.Number.Numeral
import Springboard.Source.Event
import Springboard.Tree

/-!
# Forms

The bracketed structure of a source text. An atom is a number or a symbol; brackets of two kinds
make groups, and each has to be closed by its own kind.
-/

namespace Springboard

/-- A symbol, a number or a bracketed group of forms. -/
inductive Form
  | symbol (place : Position) (text : String)
  | number (value : Number)
  | group (place : Position) (bracket : Bracket) (members : List Form)

namespace Form

/-- The place of a form; numbers do not remember theirs. -/
def place? : Form → Option Position
  | symbol place _ => some place
  | number _ => none
  | group place _ _ => some place

mutual

/-- A form as a tree of stray values, which is how it is shown. -/
def toTree : Form → Tree
  | symbol _ text => .text text
  | number value => .number value
  | group _ _ members => .list (toTrees members)

/-- Some forms as trees of stray values. -/
def toTrees : List Form → List Tree
  | [] => []
  | f :: fs => toTree f :: toTrees fs

end

/-- The form that an atom denotes. -/
def ofAtom (place : Position) (text : List Char) : Except Fault Form :=
  let token := String.ofList text
  match Number.read? token with
  | some (.ok value) => .ok (number value)
  | some (.error fault) => .error fault
  | none => .ok (symbol place token)

end Form

/-- A group that has been opened and not yet closed, its members in reverse. -/
structure OpenGroup where
  place : Position
  bracket : Bracket
  members : List Form

/-- The state of putting forms together: the forms that are complete, the latest first, and the
open groups, the innermost first. -/
structure Composer where
  forms : List Form
  groups : List OpenGroup
  failed : Option Error

namespace Composer

/-- The state before the first event. -/
def start : Composer :=
  ⟨[], [], none⟩

/-- The state after a form is complete. -/
def add (s : Composer) (f : Form) : Composer :=
  match s.groups with
  | [] => { s with forms := f :: s.forms }
  | g :: outer => { s with groups := { g with members := f :: g.members } :: outer }

/-- The state after a failure. -/
def fail (s : Composer) (e : Error) : Composer :=
  { s with failed := some e }

/-- The state after a closing bracket. -/
def close (s : Composer) (place : Position) (bracket : Bracket) : Composer :=
  match s.groups with
  | [] => s.fail (.unreadable (.unexpectedClose bracket) (some place))
  | g :: outer =>
    if g.bracket = bracket then
      { s with groups := outer }.add (.group g.place g.bracket g.members.reverse)
    else s.fail (.unreadable (.closedBy g.bracket bracket) (some place))

/-- The state after a further event. -/
def step (s : Composer) (event : Event) : Composer :=
  if s.failed.isSome then s
  else
    match event with
    | .newline _ | .comment _ _ => s
    | .opening place bracket => { s with groups := ⟨place, bracket, []⟩ :: s.groups }
    | .closing place bracket => s.close place bracket
    | .atom place text =>
      match Form.ofAtom place text with
      | .ok f => s.add f
      | .error fault => s.fail (.fault fault)

/-- The error that composition ends with, when the events themselves end with `ending`. -/
def error? (s : Composer) (ending : Option Error) : Option Error :=
  match s.failed, ending, s.groups with
  | some e, _, _ => some e
  | none, some e, _ => some e
  | none, none, g :: _ => some (.unreadable .unterminated (some g.place))
  | none, none, [] => none

end Composer

/-- A row of results, and the error that kept it from going on. -/
structure Reading (α : Type) where
  items : List α
  ending : Option Error

/-- All results, or the error. -/
def Reading.toExcept {α : Type} (r : Reading α) : Except Error (List α) :=
  match r.ending with
  | some e => .error e
  | none => .ok r.items

/-- The forms of a text. -/
def Form.ofText (text : String) : Reading Form :=
  let scan := Scan.ofText text
  let s := scan.events.foldl Composer.step .start
  ⟨s.forms.reverse, s.error? scan.error?⟩

end Springboard
