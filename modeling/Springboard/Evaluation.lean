import Springboard.Error
import Springboard.Operator
import Springboard.Tree

/-!
# Evaluation

What a surface tree means, without any conversion. Expressions are evaluated by recursion on the
tree; calls of functions go through an operation that is bounded by fuel, so that a run that does
not end is told apart from one that fails.
-/

namespace Springboard.Evaluation

/-- The values of the language. A closure has an identity, by which it is compared. -/
inductive Value
  | number (n : Number)
  | nothing
  | closure (id : Nat) (name : String) (params : List String) (body : Tree)
      (env : List (String × Value))

/-- The bindings of local names, the innermost first. -/
abbrev Env := List (String × Value)

/-- What evaluation changes: the values of the global names, and the number of closures made. -/
structure State where
  globals : List (String × Value)
  made : Nat

/-- Evaluations, whose effects remain when they fail. -/
abbrev Eval := EStateM Stop State

/-- Closures are compared by their identities. -/
def Value.same : Value → Value → Bool
  | nothing, nothing => true
  | closure id _ _ _ _, closure id' _ _ _ _ => id == id'
  | _, _ => false

instance : Operand Value where
  number? v := match v with
    | .number n => some n
    | _ => none
  isNothing v := match v with
    | .nothing => true
    | _ => false
  same := Value.same
  ofNumber := .number

/-- A step that may fault. -/
def attempt {α : Type} : Except Fault α → Eval α
  | .ok a => pure a
  | .error f => throw (.failed (.fault f))

/-- The value of a name: a local one, or else a global one. -/
def lookup (env : Env) (name : String) : Eval Value := do
  match env.lookup name with
  | some v => pure v
  | none =>
    match (← get).globals.lookup name with
    | some v => pure v
    | none => throw (.failed (.fault (.unbound name)))

/-- A new closure. -/
def makeClosure (name : String) (params : List String) (body : Tree) (env : Env) : Eval Value :=
  modifyGet fun s => (.closure s.made name params body env, { s with made := s.made + 1 })

/-- Gives a global name a value. -/
def define (name : String) (value : Value) : Eval Unit :=
  modify fun s => { s with globals := (name, value) :: s.globals.filter fun b => b.1 != name }

/-- The bindings of parameters to arguments; of two parameters of one name the later counts. -/
def bindings (params : List String) (args : List Value) : Env :=
  (params.zip args).reverse

mutual

/-- The value of a tree; `call` says what calls of functions do. -/
def evalWith (call : Value → List Value → Eval Value) (env : Env) : Tree → Eval Value
  | .literal n => pure (.number n)
  | .var name => lookup env name
  | .operation op operands => do
    let values ← evalAll call env operands
    attempt (op.evaluate values)
  | .conditional _ test conseq alt => do
    let decision ← evalWith call env test
    if Operand.isTrue decision then evalWith call env conseq else evalWith call env alt
  | .abstraction params body => makeClosure "fn" params body env
  | .definition name params body _ => do
    let closure ← makeClosure name params body env
    define name closure
    pure closure
  | .application rator rands => do
    let function ← evalWith call env rator
    let args ← evalAll call env rands
    call function args
  | t => throw (.failed (.malformed (.noRule .evaluation) none t))

/-- The values of some trees, from the left. -/
def evalAll (call : Value → List Value → Eval Value) (env : Env) : List Tree → Eval (List Value)
  | [] => pure []
  | t :: ts => do
    let first ← evalWith call env t
    let rest ← evalAll call env ts
    pure (first :: rest)

end

/-- The call of a function. The fuel bounds how deep calls may nest. -/
def call : Nat → Value → List Value → Eval Value
  | 0, _, _ => throw .outOfFuel
  | fuel + 1, .closure _ name params body env, args =>
    if params.length = args.length then
      evalWith (call fuel) (bindings params args ++ env) body
    else throw (.failed (.fault (.arity name params.length args.length)))
  | _ + 1, _, _ => throw (.failed (.fault .mismatch))

/-- The value of a tree at top level. -/
def eval (fuel : Nat) (t : Tree) : Eval Value :=
  evalWith (call fuel) [] t

/-- The values of some trees at top level, one after the other. -/
def evalSequence (fuel : Nat) : List Tree → Eval (List Value)
  | [] => pure []
  | t :: ts => do
    let first ← eval fuel t
    let rest ← evalSequence fuel ts
    pure (first :: rest)

/-- The value of the last of some trees at top level, or nothing if there is none. -/
def evaluate (fuel : Nat) (ts : List Tree) : Eval Value := do
  let values ← evalSequence fuel ts
  pure (values.getLast?.getD .nothing)

/-- The call of what a global name stands for. -/
def callGlobal (fuel : Nat) (name : String) (args : List Value) : Eval Value := do
  match (← get).globals.lookup name with
  | some f => call fuel f args
  | none => throw (.failed (.fault .missingKey))

/-- Fuel for runs that are not to be cut short. -/
def ampleFuel : Nat := 1000000

end Springboard.Evaluation
