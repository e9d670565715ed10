/-!
# Parts of a text

The parts that a separating character divides a text into. There is always one part more than
there are separators.
-/

namespace Springboard.Text

/-- The parts of some characters between separators. -/
def partsOf (separator : Char) : List Char → List (List Char)
  | [] => [[]]
  | c :: rest =>
    if c == separator then [] :: partsOf separator rest
    else
      match partsOf separator rest with
      | [] => [[c]]
      | part :: parts => (c :: part) :: parts

/-- The parts of a text between separators. -/
def parts (separator : Char) (text : String) : List String :=
  (partsOf separator text.toList).map String.ofList

end Springboard.Text
