/-!
# Powers of two and ten

The two bases in which numbers are written: floats in powers of two, numerals in powers of ten.
-/

namespace Springboard

/-- A power of two. -/
def twoTo (n : Nat) : Nat := Nat.pow 2 n

/-- A power of ten. -/
def tenTo (n : Nat) : Nat := Nat.pow 10 n

end Springboard
