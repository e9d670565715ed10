import Springboard.Number.Binary64

/-!
# Shortest decimals

The decimal with the fewest digits that reads back as a given float, and the nearest to the
float among those. A decimal reads back as the float when it lies in the interval of reals
that round to it; the ends of the interval belong to it when the significand is even.
-/

namespace Springboard.Binary64

/-- The decimal `digits · 10 ^ exponent`. -/
structure Decimal where
  digits : Nat
  exponent : Int

/-- A natural number times a power of ten, as a ratio. -/
def scaledByTen (n : Nat) (exponent : Int) : Nat × Nat :=
  if 0 ≤ exponent then (n * tenTo exponent.toNat, 1) else (n, tenTo (-exponent).toNat)

/-- Four times the magnitude of a float and of the ends of its rounding interval, counted in
units of `2 ^ exponent / 4`. -/
structure Interval where
  low : Nat
  value : Nat
  high : Nat
  /-- Whether the ends belong to the interval. -/
  closed : Bool
  exponent : Int

/-- The rounding interval of a positive finite float. Below a power of two the neighbour is
only half as far. -/
def interval (p : Parts) : Interval :=
  let narrow := p.significand = twoTo 52 && -1074 < p.exponent
  { low := 4 * p.significand - if narrow then 1 else 2
    value := 4 * p.significand
    high := 4 * p.significand + 2
    closed := p.significand % 2 = 0
    exponent := p.exponent - 2 }

/-- Whether a decimal lies in the interval. -/
def Interval.holds (i : Interval) (d : Decimal) : Bool :=
  let (up, down) := scaledByTen d.digits d.exponent
  let (grain, parts) := scaled 1 i.exponent
  let left := up * parts
  let lowest := i.low * grain * down
  let highest := i.high * grain * down
  if i.closed then lowest ≤ left && left ≤ highest else lowest < left && left < highest

/-- The greatest `e` with `10 ^ e ≤ num / den`, for positive `num` and `den`. -/
def floorLog10 (num den : Nat) : Int :=
  let guess := (Binary64.floorLog2 num den * 30103) / 100000
  let fits := fun (e : Int) =>
    let (up, down) := scaledByTen den e
    up ≤ num * down
  if fits (guess + 1) then guess + 1 else if fits guess then guess else guess - 1

/-- The decimal of the given number of digits that lies in the interval and is nearest to its
value, if there is one; of two equally near ones the one with the even last digit. -/
def Interval.decimal? (i : Interval) (top : Int) (count : Nat) : Option Decimal :=
  let exponent := top - (count - 1 : Nat)
  let (grain, parts) := scaled i.value i.exponent
  let (up, down) := scaledByTen 1 exponent
  let num := grain * down
  let den := parts * up
  let floor := num / den
  let below : Decimal := ⟨floor, exponent⟩
  let above : Decimal := ⟨floor + 1, exponent⟩
  let rest := 2 * (num % den)
  let preferBelow := if rest = den then floor % 2 = 0 else rest < den
  match i.holds below, i.holds above with
  | true, true => some (if preferBelow then below else above)
  | true, false => some below
  | false, true => some above
  | false, false => none

/-- Drops the zeros at the end of the digits. -/
def Decimal.trim : Nat → Decimal → Decimal
  | 0, d => d
  | fuel + 1, d =>
    if d.digits % 10 = 0 && d.digits != 0 then trim fuel ⟨d.digits / 10, d.exponent + 1⟩ else d

/-- The shortest decimal that reads back as a positive finite float: the first of the grids of
one to seventeen digits that has a point in the rounding interval. -/
def shortest (p : Parts) : Decimal :=
  let i := interval p
  let (grain, parts) := scaled i.value i.exponent
  let top := floorLog10 grain parts
  match (List.range 17).findSome? fun count => i.decimal? top (count + 1) with
  | some d => d.trim 20
  | none => ⟨0, 0⟩

end Springboard.Binary64
