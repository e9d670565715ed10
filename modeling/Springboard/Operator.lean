import Springboard.Fault
import Springboard.Number.Arithmetic
import Springboard.Number.Numeral

/-!
# Operators

The fixed set of primitive operators. Each knows how many operands it accepts, what it computes
and how it is written in the emitted text. Every operator is put together from binary operators
on values, the negative of a number and the denial of a truth value.
-/

namespace Springboard

/-- What the operators need to know of a type of values: which values are numbers, which one
stands for nothing, and when two other values are the same. -/
class Operand (V : Type) where
  number? : V → Option Number
  isNothing : V → Bool
  same : V → V → Bool
  ofNumber : Number → V

namespace Operand

variable {V : Type} [Operand V]

/-- A truth value as a value. -/
def ofBool (b : Bool) : V :=
  ofNumber (.bool b)

/-- A value counts as true unless it is zero or nothing. -/
def isTrue (v : V) : Bool :=
  match number? v with
  | some n => n.isTrue
  | none => !isNothing v

/-- Numbers are equal when their values are; other values only to themselves. -/
def equal (a b : V) : Bool :=
  match number? a, number? b with
  | some m, some n => m.equal n
  | none, none => same a b
  | _, _ => false

/-- The negative of a number. -/
def negate (v : V) : Except Fault V :=
  match number? v with
  | some n => .ok (ofNumber n.negate)
  | none => .error .mismatch

end Operand

/-- The binary operators of the emitted text. -/
inductive BinaryOp
  | add | sub | mul | div | quot | mod | lt | le | gt | ge | eq | ne
  deriving DecidableEq, Repr

namespace BinaryOp

/-- How a binary operator is written. -/
def symbol : BinaryOp → String
  | add => "+" | sub => "-" | mul => "*" | div => "/" | quot => "//" | mod => "%"
  | lt => "<" | le => "<=" | gt => ">" | ge => ">=" | eq => "==" | ne => "!="

/-- A comparison of numbers, which is false when one of them is not a number. -/
def holds (accept : Ordering → Bool) (a b : Number) : Except Fault Number :=
  .ok (.bool (((a.compare? b).map accept).getD false))

/-- What a binary operator computes on numbers. -/
def onNumbers : BinaryOp → Number → Number → Except Fault Number
  | add => Number.add
  | sub => Number.sub
  | mul => Number.mul
  | div => Number.div
  | quot => Number.quot
  | mod => Number.mod
  | lt => holds (· == .lt)
  | le => holds (· != .gt)
  | gt => holds (· == .gt)
  | ge => holds (· != .lt)
  | eq => fun a b => .ok (.bool (a.equal b))
  | ne => fun a b => .ok (.bool (!a.equal b))

/-- What a binary operator computes. Equality is defined on all values, the others on numbers. -/
def apply {V : Type} [Operand V] (op : BinaryOp) (a b : V) : Except Fault V :=
  match op with
  | eq => .ok (Operand.ofBool (Operand.equal a b))
  | ne => .ok (Operand.ofBool (!Operand.equal a b))
  | op =>
    match Operand.number? a, Operand.number? b with
    | some m, some n => (op.onNumbers m n).map Operand.ofNumber
    | _, _ => .error .mismatch

end BinaryOp

/-- The primitive operators. -/
inductive Operator
  | plus | minus | times | divide | quot | mod
  | less | atMost | greater | atLeast | equal | unequal
  | not | isZero | inc | dec
  deriving DecidableEq, Repr

namespace Operator

/-- How an operator is put together. -/
inductive Shape
  /-- A binary operator folded over its operands from the left. -/
  | chain (op : BinaryOp)
  /-- The negative of one operand or the difference of several. -/
  | difference
  /-- A binary operator on two operands. -/
  | pair (op : BinaryOp)
  /-- The denial of one operand. -/
  | denial
  /-- A binary operator on one operand and a fixed number. -/
  | against (op : BinaryOp) (constant : Nat)

/-- The shape of each operator. -/
def shape : Operator → Shape
  | plus => .chain .add
  | minus => .difference
  | times => .chain .mul
  | divide => .chain .div
  | quot => .pair .quot
  | mod => .pair .mod
  | less => .pair .lt
  | atMost => .pair .le
  | greater => .pair .gt
  | atLeast => .pair .ge
  | equal => .pair .eq
  | unequal => .pair .ne
  | not => .denial
  | isZero => .against .eq 0
  | inc => .against .add 1
  | dec => .against .sub 1

/-- The name of an operator in the language. -/
def name : Operator → String
  | plus => "+" | minus => "-" | times => "*" | divide => "/" | quot => "quot" | mod => "mod"
  | less => "<" | atMost => "<=" | greater => ">" | atLeast => ">="
  | equal => "=" | unequal => "not="
  | not => "not" | isZero => "zero?" | inc => "inc" | dec => "dec"

/-- All operators. -/
def all : List Operator :=
  [plus, minus, times, divide, quot, mod, less, atMost, greater, atLeast, equal, unequal,
   not, isZero, inc, dec]

/-- The operator of the given name. -/
def ofName? (name : String) : Option Operator :=
  all.find? fun op => op.name == name

/-- How an operator itself is shown. -/
def label (op : Operator) : String :=
  "<operator " ++ op.name ++ ">"

/-- The fewest operands an operator accepts. -/
def least (op : Operator) : Nat :=
  match op.shape with
  | .chain .div | .pair _ => 2
  | _ => 1

/-- The most operands an operator accepts, if there is a bound. -/
def most? (op : Operator) : Option Nat :=
  match op.shape with
  | .chain _ | .difference => none
  | .pair _ => some 2
  | .denial | .against _ _ => some 1

/-- Whether an operator accepts a number of operands. -/
def accepts (op : Operator) (count : Int) : Bool :=
  op.least ≤ count &&
    match op.most? with
    | some most => count ≤ most
    | none => true

section Meaning

variable {V : Type} [Operand V]

/-- A binary operator folded over a nonempty list from the left. -/
def fold (op : BinaryOp) : List V → Except Fault V
  | [] => .error .mismatch
  | first :: rest => rest.foldlM op.apply first

/-- What an operator computes from the values of its operands. -/
def evaluate (op : Operator) (args : List V) : Except Fault V :=
  match op.shape, args with
  | .chain b, args => fold b args
  | .difference, [x] => Operand.negate x
  | .difference, args => fold .sub args
  | .pair b, [x, y] => b.apply x y
  | .denial, [x] => .ok (Operand.ofBool (!Operand.isTrue x))
  | .against b n, [x] => b.apply x (Operand.ofNumber (.int n))
  | _, _ => .error .mismatch

end Meaning

/-- Operands joined by the symbol of a binary operator, in parentheses. -/
def joined (op : BinaryOp) (sources : List String) : String :=
  "(" ++ (" " ++ op.symbol ++ " ").intercalate sources ++ ")"

/-- How an operator is written around the texts of its operands. -/
def render (op : Operator) (sources : List String) : Except Fault String :=
  match op.shape, sources with
  | .chain b, sources | .pair b, sources => .ok (joined b sources)
  | .difference, [] => .error .mismatch
  | .difference, [x] => .ok ("(-" ++ x ++ ")")
  | .difference, sources => .ok (joined .sub sources)
  | .denial, [x] => .ok ("(not " ++ x ++ ")")
  | .against b n, [x] => .ok (joined b [x, Number.natText n])
  | _, _ => .error .mismatch

/-- Whether an operator puts the text of its operand into a template, rather than joining the
texts of its operands. -/
def isTemplate (op : Operator) (count : Nat) : Bool :=
  match op.shape with
  | .denial | .against _ _ => true
  | .difference => count = 1
  | _ => false

end Operator

end Springboard
