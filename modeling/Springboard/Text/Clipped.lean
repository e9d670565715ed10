/-!
# Clipped texts

The beginning of a text that fits into a number of bytes when it is written in UTF-8. A character
that is cut through is shown by the replacement character.
-/

namespace Springboard.Text

/-- The character that stands for one that is cut through. -/
def replacement : Char := Char.ofNat 0xFFFD

/-- The characters that fit into some bytes. -/
def clip : Nat → List Char → List Char
  | _, [] => []
  | bytes, c :: rest =>
    if c.utf8Size ≤ bytes then c :: clip (bytes - c.utf8Size) rest
    else if bytes = 0 then []
    else [replacement]

/-- The beginning of a text that fits into some bytes. -/
def clipped (bytes : Nat) (text : String) : String :=
  String.ofList (clip bytes text.toList)

end Springboard.Text
