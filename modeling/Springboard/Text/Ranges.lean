/-!
# Classes of characters

A class of characters is given by the runs of consecutive code points it consists of.
-/

namespace Springboard.Text

/-- A class of characters, as the list of its runs of code points, both ends included. -/
abbrev Ranges := List (Nat × Nat)

/-- Membership of a character in a class. -/
def Ranges.contains (runs : Ranges) (c : Char) : Bool :=
  runs.any fun run => run.1 ≤ c.toNat && c.toNat ≤ run.2

end Springboard.Text
