import Springboard.Text.Ranges

/-!
# Blank characters

The characters that separate tokens: the space separators, and the controls and marks that
end a line, a paragraph or a field.
-/

namespace Springboard.Text

/-- The runs of blank characters. -/
def blankRuns : Ranges :=
  [(0x9, 0xD), (0x1C, 0x20), (0x85, 0x85), (0xA0, 0xA0), (0x1680, 0x1680), (0x2000, 0x200A),
   (0x2028, 0x2029), (0x202F, 0x202F), (0x205F, 0x205F), (0x3000, 0x3000)]

/-- A blank character separates tokens and is part of none. -/
def isBlank (c : Char) : Bool :=
  blankRuns.contains c

end Springboard.Text
