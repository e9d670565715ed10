/-!
# Positions

A place in a source text: the line, counted from one, and the column, counted in characters
from zero.
-/

namespace Springboard

/-- A place in a source text. -/
structure Position where
  line : Nat
  column : Nat
  deriving DecidableEq, Repr

namespace Position

/-- The place where a text begins. -/
def start : Position := ⟨1, 0⟩

/-- The start of the next line. -/
def nextLine (p : Position) : Position := ⟨p.line + 1, 0⟩

/-- The place some columns further on in the same line. -/
def advance (p : Position) (width : Nat) : Position := ⟨p.line, p.column + width⟩

end Position

end Springboard
