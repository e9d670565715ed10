import Springboard.Error
import Springboard.Machine.Code
import Springboard.Operator
import Springboard.Sorted
import Springboard.Text.Clipped

/-!
# Running modules

What the functions of an emitted module do. The state holds the completion flags, each with the
continuation it wraps. Expressions are executed by recursion on the code; calls are bounded by
fuel, so that a run that does not end is told apart from one that fails.
-/

namespace Springboard.Machine

/-- The values of a running module. Functions have an identity, by which they are compared. -/
inductive Value
  | number (n : Number)
  | nothing
  | helper (h : Helper)
  | flag (index : Nat)
  /-- A function with the bindings it was made in. One that has a name of its own knows itself by
  that name. The home is the namespace whose globals it sees. -/
  | closure (id home : Nat) (own : Option String) (params : List String) (body : Code)
      (env : List (String × Value))
  /-- A function at the top of a module, with the continuation it uses when it is given none. -/
  | entry (id home : Nat) (code : Entry) (identity : Value)
  /-- The function that adds a value to its argument. -/
  | adder (id : Nat) (amount : Value)
  /-- The function that suspends adding a value to its argument and handing on the sum. -/
  | relay (id : Nat) (amount k : Value)
  /-- The suspension of handing a value to a continuation, perhaps with an amount added first. -/
  | handing (id : Nat) (k value : Value) (amount : Option Value)
  /-- A suspension that takes some steps before it becomes the work. -/
  | delay (id : Nat) (steps : Nat) (work : Value)
  /-- A suspension that fails. -/
  | failing (id : Nat)

/-- The bindings of local names, the innermost first. -/
abbrev Env := List (String × Value)

/-- The values of global names. -/
abbrev Namespace := List (String × Value)

namespace Namespace

/-- Gives a name a value, in the place of any value it had. -/
def define (ns : Namespace) (name : String) (value : Value) : Namespace :=
  (name, value) :: ns.filter fun b => b.1 != name

/-- The names that have a value, in order. -/
def names (ns : Namespace) : List String :=
  sortedTexts (ns.map Prod.fst)

end Namespace

/-- A completion flag: the continuation it wraps, and whether it is set. -/
structure Flag where
  k : Value
  done : Bool

/-- What running changes: the flags, in the order they were made, and the number of functions
made. -/
structure State where
  flags : Array Flag
  made : Nat

/-- The state before anything ran. -/
def State.start : State := ⟨#[], 0⟩

/-- Whether a flag is set. -/
def State.isDone (s : State) (index : Nat) : Bool :=
  match s.flags[index]? with
  | some flag => flag.done
  | none => false

/-- Runs, whose effects remain when they fail. -/
abbrev Run := EStateM Stop State

/-- The identity of a value that is no number. -/
inductive Identity
  | nothing | helper (h : Helper) | flag (index : Nat) | made (id : Nat)
  deriving DecidableEq, Repr

namespace Value

/-- The number that a value is. -/
def number? : Value → Option Number
  | number n => some n
  | _ => none

/-- The identity of a value that is no number. -/
def identity? : Value → Option Identity
  | number _ => none
  | nothing => some .nothing
  | helper h => some (.helper h)
  | flag i => some (.flag i)
  | closure id _ _ _ _ _ | entry id _ _ _ | adder id _ | relay id _ _
  | handing id _ _ _ | delay id _ _ | failing id => some (.made id)

/-- Whether a value stands for nothing. -/
def isNothing : Value → Bool
  | nothing => true
  | _ => false

/-- The name of a function. -/
def functionName? : Value → Option String
  | number _ | nothing | flag _ => none
  | helper h => some h.exportName
  | closure _ _ own _ _ _ => some (own.getD "<lambda>")
  | entry _ _ code _ => some code.name
  | adder _ _ | relay _ _ _ | handing _ _ _ _ | delay _ _ _ | failing _ => some "<lambda>"

end Value

instance : Operand Value where
  number? := Value.number?
  isNothing := Value.isNothing
  same a b := a.identity? == b.identity?
  ofNumber := .number

/-- Stops with a fault. -/
def fail {α : Type} (f : Fault) : Run α :=
  throw (.failed (.fault f))

/-- A step that may fault. -/
def attempt {α : Type} : Except Fault α → Run α
  | .ok a => pure a
  | .error f => fail f

/-- The number of a new function. -/
def freshId : Run Nat :=
  modifyGet fun ⟨flags, made⟩ => (made, ⟨flags, made + 1⟩)

/-- A new flag that wraps a continuation. -/
def makeFlag (k : Value) : Run Value :=
  modifyGet fun ⟨flags, made⟩ => (.flag flags.size, ⟨flags.push ⟨k, false⟩, made⟩)

/-- Whether a flag is set. -/
def isDone (index : Nat) : Run Bool := do
  pure ((← get).isDone index)

/-- Sets a flag and all flags it wraps, one inside the other. What is left is the continuation
that the innermost wraps. A flag wraps only what existed before it, so as many steps as there
are flags suffice. -/
def settle : Nat → Array Flag → Value → Array Flag × Value
  | steps + 1, flags, .flag index =>
    match flags[index]? with
    | some flag => settle steps (flags.setIfInBounds index { flag with done := true }) flag.k
    | none => (flags, .flag index)
  | _, flags, k => (flags, k)

/-- The continuation that a value handed to `k` reaches, after the flags on the way are set. -/
def settled (k : Value) : Run Value :=
  modifyGet fun ⟨flags, made⟩ =>
    let (flags, k) := settle flags.size flags k
    (k, ⟨flags, made⟩)

/-- The number of bytes of a name that a report shows. -/
def reportedBytes : Nat := 200

/-- The value of a name: a local one, or else a global one of the home. -/
def lookup (globals : Namespace) (env : Env) (name : String) : Run Value :=
  match env.lookup name with
  | some v => pure v
  | none =>
    match globals.lookup name with
    | some v => pure v
    | none => fail (.unbound (Text.clipped reportedBytes name))

/-- The bindings of parameters to arguments. -/
def bindings (params : List String) (args : List Value) : Env :=
  params.zip args

mutual

/-- The value of an expression; `call` says what calls of functions do. -/
def execWith (call : Value → List Value → Run Value) (home : Nat) (globals : Namespace)
    (env : Env) : Code → Run Value
  | .constant n => pure (.number n)
  | .name x => lookup globals env x
  | .negate a => do
    let v ← execWith call home globals env a
    attempt (Operand.negate v)
  | .deny a => do
    let v ← execWith call home globals env a
    pure (Operand.ofBool (!Operand.isTrue v))
  | .binary op a b => do
    let v ← execWith call home globals env a
    let w ← execWith call home globals env b
    attempt (op.apply v w)
  | .choose test conseq alt => do
    let decision ← execWith call home globals env test
    if Operand.isTrue decision then execWith call home globals env conseq
    else execWith call home globals env alt
  | .lambda params body => do
    let id ← freshId
    pure (.closure id home none params body env)
  | .call f args => do
    let function ← execWith call home globals env f
    let values ← execAll call home globals env args
    call function values

/-- The values of some expressions, from the left. -/
def execAll (call : Value → List Value → Run Value) (home : Nat) (globals : Namespace)
    (env : Env) : List Code → Run (List Value)
  | [] => pure []
  | a :: rest => do
    let first ← execWith call home globals env a
    let others ← execAll call home globals env rest
    pure (first :: others)

end

/-- What an entry does with its arguments and a continuation. -/
def enter (call : Value → List Value → Run Value) (home : Nat) (globals : Namespace) (e : Entry)
    (args : List Value) (k : Value) : Run Value := do
  let env := bindings (e.params ++ [e.k]) (args ++ [k])
  let maker ← lookup globals env e.makeFlag
  let flag ← call maker [k]
  let env := (e.flag, flag) :: env
  let id ← freshId
  let inner := Value.closure id home (some e.inner) e.innerParams e.innerBody env
  execWith call home globals ((e.inner, inner) :: env) e.launch

/-- The call of a function. The fuel bounds how deep calls may nest, and how often a trampoline
bounces. -/
def call (spaces : List Namespace) : Nat → Value → List Value → Run Value
  | 0, _, _ => throw .outOfFuel
  | fuel + 1, function, args =>
    match function, args with
    | .closure id home own params body env, args =>
      if params.length = args.length then
        let self := (own.map fun x => (x, Value.closure id home own params body env)).toList
        execWith (call spaces fuel) home (spaces[home]?.getD [])
          (bindings params args ++ self ++ env) body
      else fail .mismatch
    | .entry _ home e identity, args =>
      let globals := spaces[home]?.getD []
      if args.length = e.params.length then enter (call spaces fuel) home globals e args identity
      else if args.length = e.params.length + 1 then
        enter (call spaces fuel) home globals e args.dropLast (args.getLast?.getD .nothing)
      else fail .mismatch
    | .helper .identity, [value] => pure value
    | .helper .makeFlag, [k] => makeFlag k
    | .helper .applyK, [k, value] => do
      let k ← settled k
      call spaces fuel k [value]
    | .helper .trampoline, [work, .flag index] => do
      if ← isDone index then pure work
      else
        let next ← call spaces fuel work []
        call spaces fuel (.helper .trampoline) [next, .flag index]
    | .helper .trampoline, [_, _] => fail .missingAttribute
    | .adder _ amount, [value] => attempt (BinaryOp.add.apply value amount)
    | .relay _ amount k, [value] => do
      let id ← freshId
      pure (.handing id k value (some amount))
    | .handing _ k value none, [] => call spaces fuel (.helper .applyK) [k, value]
    | .handing _ k value (some amount), [] => do
      let sum ← attempt (BinaryOp.add.apply value amount)
      call spaces fuel (.helper .applyK) [k, sum]
    | .delay id steps work, [] => pure (if steps ≤ 1 then work else .delay id (steps - 1) work)
    | .failing _, [] => fail .zeroDivision
    | _, _ => fail .mismatch

/-- Fuel for runs that are not to be cut short. -/
def ampleFuel : Nat := 1000000000000

end Springboard.Machine
