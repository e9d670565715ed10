/-!
# Fresh names

A source of names that have not been handed out before. A name is made of a base and the next
number of a counter.
-/

namespace Springboard

/-- A counter of names, and the number it starts over from. -/
structure NameSource where
  start : Int
  next : Int
  deriving DecidableEq, Repr

namespace NameSource

/-- A source whose first name has the given number. -/
def startingAt (n : Int) : NameSource := ⟨n, n⟩

/-- The source that a compilation uses unless it is given one. -/
def default : NameSource := startingAt 1

/-- The base of a name that is asked for without one. -/
def defaultBase : String := "v"

/-- The name of a base and a number. -/
def nameOf (base : String) (n : Int) : String :=
  base ++ "__" ++ (if n < 0 then "-" else "") ++ n.natAbs.repr

/-- A name that the source has not handed out before. -/
def fresh (base : String) (names : NameSource) : String × NameSource :=
  (nameOf base names.next, { names with next := names.next + 1 })

/-- The source as it was at the start. -/
def reset (names : NameSource) : NameSource :=
  startingAt names.start

end NameSource

end Springboard
