import Springboard.Error
import Springboard.Tree.Build

/-!
# Suspended bodies

Every function is made to return at once: its body is wrapped in a function without parameters,
and calling that performs one step of the computation. The tree has to be free of continuations
and of conditionals that were not converted.
-/

namespace Springboard.Tree

/-- A function without parameters around a body. -/
def delayed (body : Tree) : Tree :=
  abstraction [] body

mutual

/-- The tree with the body of every function suspended. The test of a conditional is never
wrapped, so a branch is chosen at once. -/
def suspend : Tree → Except Error Tree
  | literal value => .ok (literal value)
  | var name => .ok (var name)
  | operation op operands => do
    let operands ← suspendAll operands
    .ok (operation op operands)
  | conditional sort test conseq alt =>
    match sort with
    | .converted => do
      let test ← suspend test
      let conseq ← suspend conseq
      let alt ← suspend alt
      .ok (conditional .converted test conseq alt)
    | .plain => complain (.noRule .suspension) (conditional .plain test conseq alt)
    | sort => .error (.breach .unconverted (conditional sort test conseq alt))
  | abstraction params body => do
    let body ← suspend body
    .ok (abstraction params (delayed body))
  | definition name params body own => do
    let body ← suspend body
    .ok (definition name params (delayed body) own)
  | application rator rands => do
    let rator ← suspend rator
    let rands ← suspendAll rands
    .ok (application rator rands)
  | continuation arg body => .error (.breach .unconverted (continuation arg body))
  | resumption k arg => .error (.breach .unconverted (resumption k arg))
  | t => complain (.noRule .suspension) t

/-- The same for a list of trees, from the left. -/
def suspendAll : List Tree → Except Error (List Tree)
  | [] => .ok []
  | t :: ts => do
    let first ← suspend t
    let rest ← suspendAll ts
    .ok (first :: rest)

end

end Springboard.Tree
