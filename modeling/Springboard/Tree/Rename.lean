import Springboard.Error
import Springboard.Tree
import Springboard.Tree.Build

/-!
# Renaming

The free occurrences of a variable are given another name. A binder of the old name shadows it,
so nothing below such a binder changes. Stray values cannot be renamed within.
-/

namespace Springboard.Tree

mutual

/-- The tree with the free occurrences of the variable `old` renamed to `new`. -/
def rename (old new : String) : Tree → Except Error Tree
  | var name => .ok (var (if name == old then new else name))
  | blank => .ok blank
  | literal value => .ok (literal value)
  | operation op operands => do
    let operands ← renameAll old new operands
    .ok (operation op operands)
  | conditional sort test conseq alt => do
    let test ← rename old new test
    let conseq ← rename old new conseq
    let alt ← rename old new alt
    .ok (conditional sort test conseq alt)
  | abstraction params body =>
    if params.contains old then .ok (abstraction params body)
    else do
      let body ← rename old new body
      .ok (abstraction params body)
  | definition name params body own =>
    if params.contains old then .ok (definition name params body own)
    else do
      let body ← rename old new body
      .ok (definition name params body own)
  | continuation arg body =>
    if arg == old then .ok (continuation arg body)
    else do
      let body ← rename old new body
      .ok (continuation arg body)
  | resumption k arg => do
    let k ← rename old new k
    let arg ← rename old new arg
    .ok (resumption k arg)
  | application rator rands => do
    let rator ← rename old new rator
    let rands ← renameAll old new rands
    .ok (application rator rands)
  | entry name params k flag inner => do
    let inner ← rename old new inner
    .ok (entry name params k flag inner)
  | program definitions helpers => do
    let definitions ← renameAll old new definitions
    .ok (program definitions helpers)
  | nothing => complain .cannotRename nothing
  | number n => complain .cannotRename (number n)
  | text s => complain .cannotRename (text s)
  | list items => complain .cannotRename (list items)
  | tuple items => complain .cannotRename (tuple items)

/-- Renaming in a list of trees, from the left. -/
def renameAll (old new : String) : List Tree → Except Error (List Tree)
  | [] => .ok []
  | t :: ts => do
    let first ← rename old new t
    let rest ← renameAll old new ts
    .ok (first :: rest)

end

end Springboard.Tree
