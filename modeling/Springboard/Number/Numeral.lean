import Springboard.Fault
import Springboard.Number
import Springboard.Number.Power
import Springboard.Number.Shortest
import Springboard.Text.Digit

/-!
# Numerals

How numbers are read and written. Decimal integers of more than `digitLimit` digits are
neither read nor written. A float is written with the fewest digits that read back as it.
-/

namespace Springboard.Number

open Springboard.Binary64

/-- The most digits a decimal integer may have. -/
def digitLimit : Nat := 4300

/-! ### Writing -/

/-- The decimal text of a natural number. -/
def natText (n : Nat) : String :=
  n.repr

/-- The decimal text of an integer. -/
def intText (n : Int) : Except Fault String :=
  if tenTo digitLimit ≤ n.natAbs then .error .tooManyDigits
  else .ok ((if n < 0 then "-" else "") ++ natText n.natAbs)

/-- The lower-case hexadecimal text of an integer, which has no limit. -/
def hexText (n : Int) : String :=
  (if n < 0 then "-0x" else "0x") ++ String.ofList (Nat.toDigits 16 n.natAbs)

/-- A run of zeros. -/
def zeros (n : Nat) : List Char :=
  List.replicate n '0'

/-- Where floats are written positionally: from the fourth place behind the point up to sixteen
places before it. -/
def isPositional (top : Int) : Bool :=
  -4 ≤ top && top < 16

/-- The text of a decimal. A positional one always shows a point; otherwise the exponent has a
sign and at least two digits. -/
def decimalText (d : Decimal) : List Char :=
  let digits := Nat.toDigits 10 d.digits
  let top := d.exponent + (digits.length - 1 : Nat)
  if isPositional top then
    if top < 0 then '0' :: '.' :: zeros (-top - 1).toNat ++ digits
    else
      let places := top.toNat + 1
      let whole := digits.take places ++ zeros (places - digits.length)
      let fraction := digits.drop places
      whole ++ '.' :: (if fraction.isEmpty then ['0'] else fraction)
  else
    let lead := digits.take 1
    let rest := digits.drop 1
    let power := Nat.toDigits 10 top.natAbs
    lead ++ (if rest.isEmpty then [] else '.' :: rest) ++
      'e' :: (if top < 0 then '-' else '+') :: zeros (2 - power.length) ++ power

/-- The text of a float. -/
def floatText (x : Float) : String :=
  if x.isNaN then "nan"
  else
    let sign := if isNegative x then "-" else ""
    if !isFinite x then sign ++ "inf"
    else if magnitudeBits x = 0 then sign ++ "0.0"
    else sign ++ String.ofList (decimalText (shortest (parts x)))

/-- The text of a number. -/
def text : Number → Except Fault String
  | bool true => .ok "True"
  | bool false => .ok "False"
  | int n => intText n
  | float x => .ok (floatText x)

/-! ### Reading -/

/-- Splits a minus sign off. -/
def splitSign : List Char → Bool × List Char
  | '-' :: rest => (true, rest)
  | rest => (false, rest)

/-- The values of a nonempty row of digits and nothing else. -/
def digits? (value? : Char → Option Nat) (cs : List Char) : Option (List Nat) :=
  if cs.isEmpty then none else cs.mapM value?

/-- A natural number with a sign. -/
def signed (negative : Bool) (n : Nat) : Int :=
  if negative then -n else n

/-- A decimal integer. -/
def readInt? (cs : List Char) : Option (Except Fault Number) :=
  let (negative, rest) := splitSign cs
  (digits? Text.digitValue? rest).map fun ds =>
    if digitLimit < ds.length then .error .tooManyDigits
    else .ok (int (signed negative (Text.ofDigits 10 ds)))

/-- A hexadecimal integer, marked by `0x`. -/
def readHex? (cs : List Char) : Option Number :=
  match splitSign cs with
  | (negative, '0' :: 'x' :: rest) =>
    (digits? Text.hexValue? rest).map fun ds => int (signed negative (Text.ofDigits 16 ds))
  | _ => none

/-- The float nearest to a decimal; one too large is infinite. Exponents far outside the range of
floats are not computed with. -/
def nearest (digits : List Nat) (exponent : Int) : Float :=
  let significant := digits.dropWhile (· == 0)
  let top := exponent + significant.length
  if significant.isEmpty || top < -400 then 0.0
  else if 400 < top then infinity
  else
    let (up, down) := scaledByTen (Text.ofDigits 10 significant) exponent
    (ofRatio up down).getD infinity

/-- The exponent of ten at the end of a float; the empty text stands for none. -/
def readExponent? : List Char → Option (Option Int)
  | [] => some none
  | 'e' :: rest =>
    let (negative, rest) := splitSign rest
    (digits? Text.digitValue? rest).map fun ds => some (signed negative (Text.ofDigits 10 ds))
  | _ => none

/-- A float: digits with a point among them or an exponent behind them. -/
def readFloat? (cs : List Char) : Option Number :=
  let (negative, cs) := splitSign cs
  let whole := cs.takeWhile Text.isDigit
  let rest := cs.dropWhile Text.isDigit
  let (pointed, fraction, rest) :=
    match rest with
    | '.' :: rest => (true, rest.takeWhile Text.isDigit, rest.dropWhile Text.isDigit)
    | _ => (false, [], rest)
  match digits? Text.digitValue? (whole ++ fraction), readExponent? rest with
  | some ds, some exponent? =>
    if pointed || exponent?.isSome then
      some (float (withSign negative (nearest ds (exponent?.getD 0 - fraction.length))))
    else none
  | _, _ => none

/-- The number a token denotes, if it is a numeral. -/
def read? (token : String) : Option (Except Fault Number) :=
  if token == "true" then some (.ok (bool true))
  else if token == "false" then some (.ok (bool false))
  else
    let cs := token.toList
    match readInt? cs with
    | some result => some result
    | none => ((readHex? cs).or (readFloat? cs)).map .ok

end Springboard.Number
