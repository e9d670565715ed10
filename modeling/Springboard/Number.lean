/-!
# Numbers

The numbers of the language. Truth values count as the integers zero and one wherever an
integer is wanted.
-/

namespace Springboard

/-- A truth value, an integer of any size or a binary64 float. -/
inductive Number
  | bool (b : Bool)
  | int (n : Int)
  | float (x : Float)
  deriving DecidableEq

namespace Number

/-- The integer that a number is, when it is no float. -/
def toInt? : Number → Option Int
  | bool b => some (if b then 1 else 0)
  | int n => some n
  | float _ => none

/-- Everything but zero counts as true. -/
def isTrue : Number → Bool
  | bool b => b
  | int n => n != 0
  | float x => x != 0.0

/-- The name of the sort a number belongs to. -/
def sortName : Number → String
  | bool _ => "bool"
  | int _ => "int"
  | float _ => "float"

end Number

end Springboard
