import Springboard.Number.Power

/-!
# Binary64 floats as exact numbers

A finite float is a sign and a magnitude `m · 2 ^ q` with natural `m`. Rounding a ratio of
natural numbers to the nearest float, remainders and comparisons are computed on these exact
magnitudes.
-/

namespace Springboard.Binary64

/-- The sign and the exact magnitude of a finite float. -/
structure Parts where
  /-- The sign bit. -/
  negative : Bool
  /-- The magnitude counted in units of the last place. -/
  significand : Nat
  /-- The exponent of two of one unit. -/
  exponent : Int

/-- The bits of a float without its sign. -/
def magnitudeBits (x : Float) : Nat :=
  x.toBits.toNat % twoTo 63

/-- The sign bit of a float. -/
def isNegative (x : Float) : Bool :=
  twoTo 63 ≤ x.toBits.toNat

/-- The bits of the positive infinity: every smaller magnitude is finite. -/
def infinityBits : Nat :=
  2047 * twoTo 52

/-- A float that is neither infinite nor undefined. -/
def isFinite (x : Float) : Bool :=
  magnitudeBits x < infinityBits

/-- The parts of a finite float. -/
def parts (x : Float) : Parts :=
  let fraction := magnitudeBits x % twoTo 52
  let biased : Nat := magnitudeBits x / twoTo 52
  if biased = 0 then
    { negative := isNegative x, significand := fraction, exponent := -1074 }
  else
    { negative := isNegative x, significand := twoTo 52 + fraction, exponent := (biased : Int) - 1075 }

/-- Gives a float a sign. -/
def withSign (negative : Bool) (x : Float) : Float :=
  Float.ofBits (UInt64.ofNat (magnitudeBits x + if negative then twoTo 63 else 0))

/-- A natural number times a power of two, as a ratio. -/
def scaled (n : Nat) (exponent : Int) : Nat × Nat :=
  if 0 ≤ exponent then (n * twoTo exponent.toNat, 1) else (n, twoTo (-exponent).toNat)

/-- The quotient rounded to the nearest natural number, a tie going to the even one. -/
def divideToNearest (num den : Nat) : Nat :=
  let floor := num / den
  let rest := 2 * (num % den)
  if rest < den then floor
  else if den < rest then floor + 1
  else if floor % 2 = 0 then floor
  else floor + 1

/-- The greatest `l` with `2 ^ l ≤ num / den`, for positive `num` and `den`. -/
def floorLog2 (num den : Nat) : Int :=
  let guess : Int := (num.log2 : Int) - den.log2
  let (up, down) := scaled den guess
  if up ≤ num * down then guess else guess - 1

/-- The nearest float to a ratio of natural numbers, a tie going to the even significand; none
when that is not finite. The bits of a finite magnitude `m · 2 ^ q` in lowest position are
`(q + 1074) · 2 ^ 52 + m`, also when rounding carries `m` to the next power of two. -/
def ofRatio (num den : Nat) : Option Float :=
  if num = 0 then some (Float.ofBits 0)
  else
    let unit := max (floorLog2 num den - 52) (-1074)
    let (up, down) := scaled den unit
    let bits := (unit + 1074).toNat * twoTo 52 + divideToNearest (num * down) up
    if bits < infinityBits then some (Float.ofBits (UInt64.ofNat bits)) else none

/-- The nearest float to an integer; none when it is too large. -/
def ofInt (n : Int) : Option Float :=
  (ofRatio n.natAbs 1).map (withSign (n < 0))

/-- The positive infinity. -/
def infinity : Float :=
  Float.ofBits (UInt64.ofNat infinityBits)

/-- A float that is not a number. -/
def undefinedFloat : Float :=
  Float.ofBits 0x7FF8000000000000

/-- The remainder of truncating division, which is exact and has the sign of the dividend. -/
def truncatedRemainder (x y : Float) : Float :=
  if !isFinite x || y.isNaN || y == 0.0 then undefinedFloat
  else if !isFinite y then x
  else
    let a := parts x
    let b := parts y
    let unit := min a.exponent b.exponent
    let (m, _) := scaled a.significand (a.exponent - unit)
    let (n, _) := scaled b.significand (b.exponent - unit)
    let (up, down) := scaled (m % n) unit
    withSign a.negative ((ofRatio up down).getD 0.0)

/-- The order of an integer and a float; none when the float is not a number. -/
def compareInt (n : Int) (x : Float) : Option Ordering :=
  if x.isNaN then none
  else if !isFinite x then some (if isNegative x then .gt else .lt)
  else
    let p := parts x
    let (up, down) := scaled p.significand p.exponent
    let value : Int := if p.negative then -up else up
    some (compare (n * down) value)

/-- The order of two floats; none when one of them is not a number. -/
def compareFloat (x y : Float) : Option Ordering :=
  if x < y then some .lt
  else if y < x then some .gt
  else if x == y then some .eq
  else none

end Springboard.Binary64
