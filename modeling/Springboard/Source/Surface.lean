import Springboard.Error
import Springboard.Source.Form
import Springboard.Tree
import Springboard.Tree.Build

/-!
# Surface trees

What the forms of a source text mean: variables, literals, operations, conditionals, functions,
definitions and applications. The connectives `and` and `or` become conditionals, in which an
operand is computed only when the operands before it leave the result open.
-/

namespace Springboard

/-- The connectives. -/
inductive Connective
  | and | or
  deriving DecidableEq, Repr

namespace Connective

/-- The name of a connective. -/
def name : Connective → String
  | and => "and"
  | or => "or"

/-- The conditional on a first operand that goes on with the others when it leaves the result
open, and else has the first operand as its value. -/
def branch (c : Connective) (first others : Tree) : Tree :=
  match c with
  | and => Tree.choose first others first
  | or => Tree.choose first first others

/-- The first of the names `base`, `base_`, `base__` and so on that is not taken. -/
def firstFree (base : String) (taken : List String) : String :=
  let name := fun n => base ++ String.ofList (List.replicate n '_')
  name (((List.range (taken.length + 1)).find? fun n => !taken.contains (name n)).getD 0)

/-- A connective of a first operand and the meaning of the others. A serious first operand is
bound to a variable that does not occur in the others, so that it is computed once. -/
def combine (c : Connective) (first others : Tree) : Tree :=
  if first.isTrivial then c.branch first others
  else
    let name := firstFree (c.name ++ "__") others.mentioned
    .application (.abstraction [name] (c.branch (.var name) others)) [first]

end Connective

/-- The words at the head of a group that give it a meaning of its own. -/
inductive Special
  | connective (c : Connective)
  | conditional
  | function
  | definition
  deriving DecidableEq, Repr

/-- The special meaning of a word. -/
def Special.ofName? : String → Option Special
  | "and" => some (.connective .and)
  | "or" => some (.connective .or)
  | "if" => some .conditional
  | "fn" | "lambda" => some .function
  | "defn" => some .definition
  | _ => none

namespace Form

/-- A complaint about a form. -/
def complain {α : Type} (complaint : Complaint) (f : Form) : Except Error α :=
  .error (.malformed complaint f.place? f.toTree)

/-- The names of forms that are all symbols. -/
def symbols? : List Form → Option (List String)
  | [] => some []
  | symbol _ text :: rest => (symbols? rest).map (text :: ·)
  | _ :: _ => none

/-- The parameters that a form lists. -/
def params (head : String) (f : Form) : Except Error (List String) :=
  match f with
  | group _ _ members =>
    match symbols? members with
    | some names => .ok names
    | none => complain (.parameterList head) f
  | f => complain (.parameterList head) f

mutual

/-- The surface tree of a form. -/
def surface : Form → Except Error Tree
  | symbol _ text => .ok (.var text)
  | number value => .ok (.literal value)
  | group place bracket members => surfaceGroup (group place bracket members) members

/-- The surface tree of a group, given with its members. -/
def surfaceGroup (whole : Form) : List Form → Except Error Tree
  | [] => complain .emptyApplication whole
  | symbol _ text :: rest =>
    match Special.ofName? text with
    | some (.connective c) => surfaceConnective whole c rest
    | some .conditional =>
      match rest with
      | [test, conseq, alt] => do
        let test ← surface test
        let conseq ← surface conseq
        let alt ← surface alt
        .ok (.choose test conseq alt)
      | _ => complain .conditionalShape whole
    | some .function =>
      match rest with
      | [params, body] => do
        let params ← Form.params text params
        let body ← surface body
        .ok (.abstraction params body)
      | _ => complain (.functionShape text) whole
    | some .definition =>
      match rest with
      | [symbol _ name, params, body] => do
        let params ← Form.params text params
        let body ← surface body
        .ok (.definition name params body none)
      | _ => complain .definitionShape whole
    | none =>
      match Operator.ofName? text with
      | some op =>
        if op.accepts rest.length then do
          let operands ← surfaceAll rest
          .ok (.operation op operands)
        else complain (.operandCount text) whole
      | none => do
        let rands ← surfaceAll rest
        .ok (.application (.var text) rands)
  | head :: rest => do
    let rator ← surface head
    let rands ← surfaceAll rest
    .ok (.application rator rands)

/-- The surface tree of a connective over some operands. -/
def surfaceConnective (whole : Form) (c : Connective) : List Form → Except Error Tree
  | [] => complain (.noOperands c.name) whole
  | first :: rest =>
    if rest.isEmpty then surface first
    else do
      let first ← surface first
      let others ← surfaceConnective whole c rest
      .ok (c.combine first others)

/-- The surface trees of some forms, from the left. -/
def surfaceAll : List Form → Except Error (List Tree)
  | [] => .ok []
  | f :: fs => do
    let first ← surface f
    let rest ← surfaceAll fs
    .ok (first :: rest)

end

end Form

/-- The surface tree of a value that was not read from a text: numbers are literals, and nothing
else has a meaning. -/
def Tree.surface : Tree → Except Error Tree
  | .number n => .ok (.literal n)
  | t => Tree.complain .noMeaning t

/-- The surface trees of some forms, up to the first form that has none; `ending` is the error
that the forms themselves end with. -/
def readForms (ending : Option Error) : List Form → Reading Tree
  | [] => ⟨[], ending⟩
  | f :: fs =>
    match f.surface with
    | .error e => ⟨[], some e⟩
    | .ok t =>
      let rest := readForms ending fs
      ⟨t :: rest.items, rest.ending⟩

/-- The surface trees of a text, one after the other. -/
def Tree.readStream (text : String) : Reading Tree :=
  let forms := Form.ofText text
  readForms forms.ending forms.items

/-- The surface trees of a text. -/
def Tree.readAll (text : String) : Except Error (List Tree) :=
  (Tree.readStream text).toExcept

/-- The surface tree of a text with exactly one form. -/
def Tree.read (text : String) : Except Error Tree := do
  match ← Tree.readAll text with
  | [t] => .ok t
  | ts => .error (.unreadable (.formCount ts.length) none)

end Springboard
