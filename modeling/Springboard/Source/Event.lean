import Springboard.Error
import Springboard.Source.Position
import Springboard.Text.Blank

/-!
# Events

A source text is read as a row of events: atoms, brackets, comments and ends of lines, each with
its place. The characters between them are blank. Reading stops at a quotation mark outside of
comments, since there are no texts in the language.
-/

namespace Springboard

/-- A token of a source text. -/
inductive Event
  | newline (place : Position)
  | opening (place : Position) (bracket : Bracket)
  | closing (place : Position) (bracket : Bracket)
  | comment (place : Position) (text : List Char)
  | atom (place : Position) (text : List Char)

namespace Event

/-- The place of an event. -/
def place : Event → Position
  | newline p | opening p _ | closing p _ | comment p _ | atom p _ => p

/-- The part of the source text that an event stands for. -/
def source : Event → List Char
  | newline _ => ['\n']
  | opening _ b => [b.opener]
  | closing _ b => [b.closer]
  | comment _ text | atom _ text => text

end Event

/-- The character that would begin a text. -/
def stringMark : Char := Char.ofNat 0x22

/-- The characters that end an atom without being blank. -/
def isDelimiter (c : Char) : Bool :=
  c == '(' || c == ')' || c == '[' || c == ']' || c == ';' || c == stringMark

/-- A character that may be part of an atom. -/
def isAtomChar (c : Char) : Bool :=
  !Text.isBlank c && !isDelimiter c

/-- A token that has begun and may go on. -/
inductive Unfinished
  | none
  | comment (place : Position) (reversed : List Char)
  | atom (place : Position) (reversed : List Char)

namespace Unfinished

/-- Whether a token goes on with a character. -/
def takes : Unfinished → Char → Bool
  | none, _ => false
  | comment _ _, c => c != '\n'
  | atom _ _, c => isAtomChar c

/-- The token with a further character. -/
def push (c : Char) : Unfinished → Unfinished
  | none => none
  | comment p cs => comment p (c :: cs)
  | atom p cs => atom p (c :: cs)

/-- The event of a token that is complete, in front of later events. -/
def finish (events : List Event) : Unfinished → List Event
  | none => events
  | comment p cs => .comment p cs.reverse :: events
  | atom p cs => .atom p cs.reverse :: events

end Unfinished

/-- The state of reading a text from the left: the events so far, the latest first. -/
structure Scanner where
  events : List Event
  unfinished : Unfinished
  position : Position
  /-- The place of the quotation mark that reading stopped at. -/
  stopped : Option Position

namespace Scanner

/-- The state before the first character. -/
def start : Scanner :=
  ⟨[], .none, .start, none⟩

/-- The state after a character that begins something new. -/
def begin (s : Scanner) (c : Char) : Scanner :=
  let events := s.unfinished.finish s.events
  let next := s.position.advance 1
  let place := s.position
  if c == '\n' then ⟨.newline place :: events, .none, place.nextLine, none⟩
  else if Text.isBlank c then ⟨events, .none, next, none⟩
  else if c == '(' then ⟨.opening place .round :: events, .none, next, none⟩
  else if c == '[' then ⟨.opening place .square :: events, .none, next, none⟩
  else if c == ')' then ⟨.closing place .round :: events, .none, next, none⟩
  else if c == ']' then ⟨.closing place .square :: events, .none, next, none⟩
  else if c == ';' then ⟨events, .comment place [c], next, none⟩
  else if c == stringMark then ⟨events, .none, place, some place⟩
  else ⟨events, .atom place [c], next, none⟩

/-- The state after a further character. -/
def step (s : Scanner) (c : Char) : Scanner :=
  if s.stopped.isSome then s
  else if s.unfinished.takes c then
    { s with unfinished := s.unfinished.push c, position := s.position.advance 1 }
  else s.begin c

end Scanner

/-- The events of a text, and the place of the quotation mark that ended reading early. -/
structure Scan where
  events : List Event
  stopped : Option Position

/-- The events of a text. -/
def Scan.ofText (text : String) : Scan :=
  let s := text.toList.foldl Scanner.step .start
  ⟨(s.unfinished.finish s.events).reverse, s.stopped⟩

/-- The error that a scan ends with. -/
def Scan.error? (scan : Scan) : Option Error :=
  scan.stopped.map fun place => .unreadable .stringLiteral (some place)

end Springboard
