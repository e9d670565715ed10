import Springboard.Error
import Springboard.Sorted
import Springboard.Tree
import Springboard.Tree.Equality

/-!
# Checked construction

Nodes built from parts that need not fit. The parts that have to be numbers, names or operators
are checked here; children are not, since any tree may stand where a node is expected.
-/

namespace Springboard.Tree

/-- A complaint without a place in a source text. -/
def complain {α : Type} (complaint : Complaint) (subject : Tree) : Except Error α :=
  .error (.malformed complaint none subject)

/-- A literal, whose value has to be a number. -/
def literalOf : Tree → Except Error Tree
  | number n => .ok (literal n)
  | value => complain .literalNotNumber value

/-- A variable, which has to have a name. -/
def varOf : Tree → Except Error Tree
  | text name => .ok (var name)
  | name => complain .variableNotName name

/-- An operation, whose operator is given by its name. -/
def operationOf (op : Tree) (operands : List Tree) : Except Error Tree :=
  if !op.isKey then .error (.fault .mismatch)
  else
    match op with
    | text name =>
      match Operator.ofName? name with
      | some op => .ok (operation op operands)
      | none => complain .notOperator op
    | op => complain .notOperator op

/-- Parameters, each of which has to be a name. -/
def paramsOf : List Tree → Except Error (List String)
  | [] => .ok []
  | text name :: rest => do
    let rest ← paramsOf rest
    .ok (name :: rest)
  | param :: _ => complain .parameterNotName param

/-- An abstraction over parameters that have to be names. -/
def abstractionOf (params : List Tree) (body : Tree) : Except Error Tree := do
  let params ← paramsOf params
  .ok (abstraction params body)

/-- A definition, which has to have a name, and whose parameters have to be names. -/
def definitionOf (name : Tree) (params : List Tree) (body : Tree) (own : Option String) :
    Except Error Tree :=
  match name with
  | text name => do
    let params ← paramsOf params
    .ok (definition name params body own)
  | name => complain .unnamedDefinition name

/-- A continuation, which has to bind a name. -/
def continuationOf (arg : Tree) (body : Tree) : Except Error Tree :=
  match arg with
  | text arg => .ok (continuation arg body)
  | arg => complain .unnamedContinuation arg

/-- An entry, whose parameters have to be names. -/
def entryOf (name : String) (params : List Tree) (k flag : String) (inner : Tree) :
    Except Error Tree := do
  let params ← paramsOf params
  .ok (entry name params k flag inner)

/-- The order of pairs of texts: by the first, then by the second. -/
def pairLe (a b : String × String) : Bool :=
  a.1 < b.1 || (a.1 == b.1 && a.2 ≤ b.2)

/-- The pairs of a table in which a later pair replaces an earlier one of the same key. -/
def latest (pairs : List (String × String)) : List (String × String) :=
  pairs.foldl (fun table p => table.filter (fun q => q.1 != p.1) ++ [p]) []

/-- A program, whose helper names are kept in order. -/
def programOf (definitions : List Tree) (helpers : List (String × String)) : Tree :=
  program definitions (sorted pairLe helpers)

/-- The name a role has in a program. -/
def helperName (t : Tree) (role : String) : Except Fault String :=
  match t with
  | program _ helpers =>
    match helpers.reverse.lookup role with
    | some name => .ok name
    | none => .error .missingKey
  | _ => .error .missingAttribute

end Springboard.Tree
