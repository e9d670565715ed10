import Springboard.Error
import Springboard.Tree.Build

/-!
# Continuations as functions

A continuation becomes an ordinary function of one parameter, and a value handed to a
continuation becomes a call of the helper that hands values on.
-/

namespace Springboard.Tree

mutual

/-- The tree with its continuations made functions; `applyK` is the name of the helper. -/
def abstractK (applyK : String) : Tree → Except Error Tree
  | continuation arg body => do
    let body ← abstractK applyK body
    .ok (abstraction [arg] body)
  | resumption k arg => do
    let k ← abstractK applyK k
    let arg ← abstractK applyK arg
    .ok (application (var applyK) [k, arg])
  | blank => .ok blank
  | literal value => .ok (literal value)
  | var name => .ok (var name)
  | operation op operands => do
    let operands ← abstractAll applyK operands
    .ok (operation op operands)
  | conditional sort test conseq alt => do
    let test ← abstractK applyK test
    let conseq ← abstractK applyK conseq
    let alt ← abstractK applyK alt
    .ok (conditional sort test conseq alt)
  | abstraction params body => do
    let body ← abstractK applyK body
    .ok (abstraction params body)
  | definition name params body own => do
    let body ← abstractK applyK body
    .ok (definition name params body own)
  | application rator rands => do
    let rator ← abstractK applyK rator
    let rands ← abstractAll applyK rands
    .ok (application rator rands)
  | entry name params k flag inner => do
    let inner ← abstractK applyK inner
    .ok (entry name params k flag inner)
  | program definitions helpers => do
    let definitions ← abstractAll applyK definitions
    .ok (program definitions helpers)
  | nothing => complain (.noRule .abstraction) nothing
  | number n => complain (.noRule .abstraction) (number n)
  | text s => complain (.noRule .abstraction) (text s)
  | list items => complain (.noRule .abstraction) (list items)
  | tuple items => complain (.noRule .abstraction) (tuple items)

/-- The same for a list of trees, from the left. -/
def abstractAll (applyK : String) : List Tree → Except Error (List Tree)
  | [] => .ok []
  | t :: ts => do
    let first ← abstractK applyK t
    let rest ← abstractAll applyK ts
    .ok (first :: rest)

end

end Springboard.Tree
