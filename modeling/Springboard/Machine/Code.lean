import Springboard.Emission.Identifier
import Springboard.Helper
import Springboard.Number
import Springboard.Operator
import Springboard.Tree

/-!
# Code

What the emitted text of a program consists of once it is read: expressions over identifiers and
binary operators, and functions that make a flag and bounce. Here names are compared by their
identifiers.
-/

namespace Springboard.Machine

/-- An expression of the emitted text. -/
inductive Code
  | constant (n : Number)
  | name (ident : String)
  | negate (operand : Code)
  | deny (operand : Code)
  | binary (op : BinaryOp) (left right : Code)
  | choose (test conseq alt : Code)
  | lambda (params : List String) (body : Code)
  | call (function : Code) (args : List Code)

/-- A function at the top of a module. It takes its parameters and a continuation, makes a flag
of the continuation, defines an inner function, calls it once and bounces. -/
structure Entry where
  name : String
  params : List String
  k : String
  flag : String
  /-- The inner function's identifier, parameters and body. -/
  inner : String
  innerParams : List String
  innerBody : Code
  /-- The identifiers of the helpers that the function mentions. -/
  makeFlag : String
  trampoline : String

/-- What an entry does once its inner function is defined: it calls that with the parameters and
the flag, and bounces on the result. -/
def Entry.launch (e : Entry) : Code :=
  .call (.name e.trampoline)
    [.call (.name e.inner) (e.params.map .name ++ [.name e.flag]), .name e.flag]

/-- A module: the identifiers its helpers are imported under, its entries, and the identifier of
the continuation an entry uses when it is given none. -/
structure Module where
  imports : List (String × Helper)
  identity : String
  entries : List Entry

namespace Code

/-- A binary operator over operands, associated to the left. -/
def chain (op : BinaryOp) : List Code → Option Code
  | [] => none
  | first :: rest => some (rest.foldl (Code.binary op) first)

/-- The expression of an operator over operands. -/
def ofOperation (op : Operator) (operands : List Code) : Option Code :=
  match op.shape, operands with
  | .chain b, operands => chain b operands
  | .difference, [x] => some (negate x)
  | .difference, operands => chain .sub operands
  | .pair b, [x, y] => some (binary b x y)
  | .denial, [x] => some (deny x)
  | .against b n, [x] => some (binary b x (constant (.int n)))
  | _, _ => none

mutual

/-- The expression that a compiled tree is emitted as. -/
def ofTree? : Tree → Option Code
  | .literal n => some (constant n)
  | .var x => some (name (mangle x))
  | .operation op operands => do
    let operands ← ofTrees? operands
    ofOperation op operands
  | .conditional .converted test conseq alt => do
    let test ← ofTree? test
    let conseq ← ofTree? conseq
    let alt ← ofTree? alt
    some (choose test conseq alt)
  | .abstraction params body => do
    let body ← ofTree? body
    some (lambda (params.map mangle) body)
  | .application rator rands => do
    let rator ← ofTree? rator
    let rands ← ofTrees? rands
    some (call rator rands)
  | _ => none

/-- The expressions that some compiled trees are emitted as. -/
def ofTrees? : List Tree → Option (List Code)
  | [] => some []
  | t :: ts => do
    let first ← ofTree? t
    let rest ← ofTrees? ts
    some (first :: rest)

end

mutual

/-- Whether the parameters of every function are distinct. -/
def isProper : Code → Bool
  | constant _ | name _ => true
  | negate a | deny a => isProper a
  | binary _ a b => isProper a && isProper b
  | choose t c a => isProper t && isProper c && isProper a
  | lambda params body => decide params.Nodup && isProper body
  | call f args => isProper f && areProper args

/-- Whether the parameters of every function in some expressions are distinct. -/
def areProper : List Code → Bool
  | [] => true
  | a :: rest => isProper a && areProper rest

end

end Code

namespace Entry

/-- The entry that an entry of a program is emitted as. -/
def ofTree? (helpers : List (String × String)) : Tree → Option Entry
  | .entry name params k flag (.definition inner innerParams body _) => do
    let makeFlag ← helpers.lookup Helper.makeFlag.role
    let trampoline ← helpers.lookup Helper.trampoline.role
    let body ← Code.ofTree? body
    some
      { name := mangle name
        params := params.map mangle
        k := mangle k
        flag := mangle flag
        inner := mangle inner
        innerParams := innerParams.map mangle
        innerBody := body
        makeFlag := mangle makeFlag
        trampoline := mangle trampoline }
  | _ => none

/-- Whether the parameters of an entry and of all functions in it are distinct. -/
def isProper (e : Entry) : Bool :=
  decide (e.params ++ [e.k]).Nodup && decide e.innerParams.Nodup && e.innerBody.isProper

end Entry

namespace Module

/-- The imports that a table of helper names stands for. -/
def importsOf? (helpers : List (String × String)) : Option (List (String × Helper)) :=
  helpers.mapM fun h => (Helper.ofRole? h.1).map fun helper => (mangle h.2, helper)

/-- The module that a program is emitted as. -/
def ofProgram? : Tree → Option Module
  | .program definitions helpers => do
    let imports ← importsOf? helpers
    let identity ← helpers.lookup Helper.identity.role
    let entries ← definitions.mapM (Entry.ofTree? helpers)
    some ⟨imports, mangle identity, entries⟩
  | _ => none

/-- Whether the parameters of every function are distinct, as they have to be. -/
def isProper (m : Module) : Bool :=
  m.entries.all Entry.isProper

end Module

end Springboard.Machine
