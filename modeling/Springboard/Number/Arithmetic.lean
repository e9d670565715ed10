import Springboard.Fault
import Springboard.Number
import Springboard.Number.Binary64

/-!
# Arithmetic

Integers are added, subtracted and multiplied exactly. As soon as one operand is a float both
are made floats, which fails when an integer is too large. Quotients go to the floor, and a
remainder has the sign of the divisor.
-/

namespace Springboard.Number

/-- The nearest float to a number. -/
def toFloat : Number → Except Fault Float
  | bool b => .ok (if b then 1.0 else 0.0)
  | int n =>
    match Binary64.ofInt n with
    | some x => .ok x
    | none => .error .overflow
  | float x => .ok x

/-- A binary operation given by its meaning on integers and its meaning on floats. -/
def lift (onInts : Int → Int → Except Fault Number) (onFloats : Float → Float → Except Fault Number)
    (a b : Number) : Except Fault Number :=
  match a.toInt?, b.toInt? with
  | some m, some n => onInts m n
  | _, _ => do
    let x ← a.toFloat
    let y ← b.toFloat
    onFloats x y

/-- Addition. -/
def add : Number → Number → Except Fault Number :=
  lift (fun m n => .ok (int (m + n))) (fun x y => .ok (float (x + y)))

/-- Subtraction. -/
def sub : Number → Number → Except Fault Number :=
  lift (fun m n => .ok (int (m - n))) (fun x y => .ok (float (x - y)))

/-- Multiplication. -/
def mul : Number → Number → Except Fault Number :=
  lift (fun m n => .ok (int (m * n))) (fun x y => .ok (float (x * y)))

/-- The negative of a number; that of a truth value is an integer. -/
def negate : Number → Number
  | bool b => int (if b then -1 else 0)
  | int n => int (-n)
  | float x => float (-x)

/-- The quotient of two integers as the nearest float. -/
def divideInts (m n : Int) : Except Fault Number :=
  if n = 0 then .error .zeroDivision
  else
    match Binary64.ofRatio m.natAbs n.natAbs with
    | some x => .ok (float (Binary64.withSign ((m < 0) != (n < 0)) x))
    | none => .error .overflow

/-- Division, whose result is always a float. -/
def div : Number → Number → Except Fault Number :=
  lift divideInts fun x y => if y == 0.0 then .error .zeroDivision else .ok (float (x / y))

/-- The floor of a quotient of floats and its remainder. The truncating remainder is exact; where
it has the wrong sign the divisor is added to it and one is taken off the quotient. -/
def floorDivide (x y : Float) : Float × Float :=
  let rest := Binary64.truncatedRemainder x y
  let quotient := (x - rest) / y
  let crossed := rest != 0.0 && (decide (y < 0.0) != decide (rest < 0.0))
  let rest :=
    if rest == 0.0 then Binary64.withSign (Binary64.isNegative y) 0.0
    else if crossed then rest + y
    else rest
  let quotient := if crossed then quotient - 1.0 else quotient
  let floor := quotient.floor
  if quotient == 0.0 then (Binary64.withSign (Binary64.isNegative (x / y)) 0.0, rest)
  else if quotient - floor > 0.5 then (floor + 1.0, rest)
  else (floor, rest)

/-- The quotient rounded down. -/
def quot : Number → Number → Except Fault Number :=
  lift (fun m n => if n = 0 then .error .zeroDivision else .ok (int (m.fdiv n)))
    (fun x y => if y == 0.0 then .error .zeroDivision else .ok (float (floorDivide x y).1))

/-- The remainder of the quotient rounded down. -/
def mod : Number → Number → Except Fault Number :=
  lift (fun m n => if n = 0 then .error .zeroDivision else .ok (int (m.fmod n)))
    (fun x y => if y == 0.0 then .error .zeroDivision else .ok (float (floorDivide x y).2))

/-- The order of two numbers, which is exact also between integers and floats; none when one of
them is not a number. -/
def compare? : Number → Number → Option Ordering
  | float x, float y => Binary64.compareFloat x y
  | float x, b => (b.toInt?.bind fun n => Binary64.compareInt n x).map Ordering.swap
  | a, float y => a.toInt?.bind fun m => Binary64.compareInt m y
  | a, b =>
    match a.toInt?, b.toInt? with
    | some m, some n => some (compare m n)
    | _, _ => none

/-- Equality of value, whatever the sorts. -/
def equal (a b : Number) : Bool :=
  a.compare? b == some .eq

/-- Equality of sort and value. -/
def equalSorted (a b : Number) : Bool :=
  a.sortName == b.sortName && a.equal b

end Springboard.Number
