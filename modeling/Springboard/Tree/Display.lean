import Springboard.Number.Numeral
import Springboard.Text.Quoted
import Springboard.Tree

/-!
# Display of trees

The text that shows a tree: the kind of a node with its fields in order, and stray values as
numbers, quoted texts, lists and tuples. It fails when an integer has too many digits.
-/

namespace Springboard

/-- The texts of some items in brackets. -/
def listText (items : List String) : String :=
  "[" ++ ", ".intercalate items ++ "]"

/-- The texts of some items in parentheses; a single one is followed by a comma. -/
def tupleText : List String → String
  | [item] => "(" ++ item ++ ",)"
  | items => "(" ++ ", ".intercalate items ++ ")"

/-- A row of names as a tuple of quoted texts. -/
def namesText (names : List String) : String :=
  tupleText (names.map Text.quoted)

/-- The name of a kind with the texts of its fields. -/
def fieldsText (kind : Kind) (fields : List (String × String)) : String :=
  kind.name ++ "(" ++ ", ".intercalate (fields.map fun f => f.1 ++ "=" ++ f.2) ++ ")"

namespace Tree

mutual

/-- The text of a tree. -/
def display : Tree → Except Fault String
  | blank => .ok (fieldsText .node [])
  | literal value => do
    let value ← value.text
    .ok (fieldsText .literal [("value", value)])
  | var name => .ok (fieldsText .var [("name", Text.quoted name)])
  | operation op operands => do
    let operands ← displayAll operands
    .ok (fieldsText .operation [("op", Text.quoted op.name), ("operands", tupleText operands)])
  | conditional sort test conseq alt => do
    let test ← display test
    let conseq ← display conseq
    let alt ← display alt
    .ok (fieldsText (.conditional sort) [("test", test), ("conseq", conseq), ("alt", alt)])
  | abstraction params body => do
    let body ← display body
    .ok (fieldsText .abstraction [("params", namesText params), ("body", body)])
  | definition name params body own => do
    let body ← display body
    let own := (own.map Text.quoted).getD "None"
    .ok (fieldsText .definition
      [("name", Text.quoted name), ("params", namesText params), ("body", body), ("local", own)])
  | continuation arg body => do
    let body ← display body
    .ok (fieldsText .continuation [("arg", Text.quoted arg), ("body", body)])
  | resumption k arg => do
    let k ← display k
    let arg ← display arg
    .ok (fieldsText .resumption [("k", k), ("arg", arg)])
  | application rator rands => do
    let rator ← display rator
    let rands ← displayAll rands
    .ok (fieldsText .application [("rator", rator), ("rands", tupleText rands)])
  | entry name params k flag inner => do
    let inner ← display inner
    .ok (fieldsText .entry
      [("name", Text.quoted name), ("params", namesText params), ("k", Text.quoted k),
       ("flag", Text.quoted flag), ("local", inner)])
  | program definitions helpers => do
    let definitions ← displayAll definitions
    let helpers := helpers.map fun h => namesText [h.1, h.2]
    .ok (fieldsText .program [("definitions", tupleText definitions), ("runtime", tupleText helpers)])
  | nothing => .ok "None"
  | number n => n.text
  | text s => .ok (Text.quoted s)
  | list items => do
    let items ← displayAll items
    .ok (listText items)
  | tuple items => do
    let items ← displayAll items
    .ok (tupleText items)

/-- The texts of some trees. -/
def displayAll : List Tree → Except Fault (List String)
  | [] => .ok []
  | t :: ts => do
    let first ← display t
    let rest ← displayAll ts
    .ok (first :: rest)

end

end Tree

end Springboard
