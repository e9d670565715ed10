import Springboard.Error
import Springboard.Emission.Identifier
import Springboard.Helper
import Springboard.Tree
import Springboard.Tree.Display

/-!
# The emitted text

A compiled tree is written as Python source: an expression as a piece of text, a definition as
a row of lines, and a program as the text of a module. A tree that holds a definition where an
expression belongs has no sensible text; the pieces keep the two apart.
-/

namespace Springboard

/-- The text of an expression, or the lines of a definition. -/
inductive Piece
  | text (s : String)
  | lines (ls : List String)

namespace Piece

/-- A piece in the middle of a line; lines are shown as a list of quoted texts. -/
def inline : Piece → String
  | text s => s
  | lines ls => listText (ls.map Text.quoted)

/-- The text of an expression. -/
def expression : Piece → Except Error String
  | text s => .ok s
  | lines _ => .error (.fault .mismatch)

/-- A piece as lines; every character of an expression becomes a line. -/
def toLines : Piece → List String
  | text s => s.toList.map Char.toString
  | lines ls => ls

/-- A piece as a text of its own. -/
def whole : Piece → String
  | text s => s
  | lines ls => "\n".intercalate ls ++ "\n"

end Piece

/-- The names that helpers go by, under their roles. -/
abbrev HelperTable := List (String × String)

/-- The helpers under the names of their roles. -/
def HelperTable.plain : HelperTable :=
  Helper.all.map fun helper => (helper.role, helper.role)

/-- Emission keeps the names of the helpers that are in force: those of the latest program. -/
abbrev Emit := StateT HelperTable (Except Error)

/-- The identifier of a helper. -/
def helperIdent (helper : Helper) : Emit String := fun table =>
  match table.reverse.lookup helper.role with
  | some name => .ok (mangle name, table)
  | none => .error (.fault .missingKey)

/-- The module that the helpers are imported from, unless another is given. -/
def defaultModule : String := "cpstco.runtime"

/-- One level of indentation. -/
def indent (line : String) : String :=
  "    " ++ line

/-- The text of a number as an expression. Floats without a numeral are calls. -/
def literalText (value : Number) : Except Error String := do
  let shown ← Error.ofFault value.text
  match value with
  | .float x => .ok (if Binary64.isFinite x then shown else "float(" ++ Text.quoted shown ++ ")")
  | _ => .ok shown

/-- The identifiers of some parameters, separated by commas. -/
def paramsText (params : List String) : String :=
  ", ".intercalate (params.map mangle)

/-- The text of a function. -/
def lambdaText (params : List String) (body : String) : String :=
  if params.isEmpty then "(lambda: " ++ body ++ ")"
  else "(lambda " ++ paramsText params ++ ": " ++ body ++ ")"

/-- The lines of a definition of a function. -/
def definitionLines (name : String) (params : List String) (body : String) : List String :=
  ["def " ++ mangle name ++ "(" ++ paramsText params ++ "):", indent ("return " ++ body)]

/-- The lines of an import of the helpers. -/
def importLines (source : String) : HelperTable → Except Error (List String)
  | table => do
    let names ← table.mapM fun h =>
      match Helper.ofRole? h.1 with
      | some helper => .ok (indent (helper.exportName ++ " as " ++ mangle h.2 ++ ","))
      | none => .error (.fault .missingKey)
    .ok (["from " ++ source ++ " import ("] ++ names ++ [")"])

/-- The text of a module: a remark, the import of the helpers, and the lines of each piece behind
two empty lines. -/
def moduleText (imports : List String) (pieces : List Piece) : String :=
  let body := pieces.flatMap fun piece => "" :: "" :: piece.toLines
  "\n".intercalate (["# compiled by cpstco", ""] ++ imports ++ body ++ [""])

/-- The lines of an entry, given the identifiers of the helpers and the lines of the inner
definition. -/
def entryLines (name : String) (params : List String) (k flag inner : String)
    (identity makeFlag trampoline : String) (innerLines : List String) : List String :=
  let params := params.map mangle
  let formals := params ++ [mangle k ++ "=" ++ identity]
  let actuals := params ++ [mangle flag]
  let head := "def " ++ mangle name ++ "(" ++ ", ".intercalate formals ++ "):"
  let first := mangle flag ++ " = " ++ makeFlag ++ "(" ++ mangle k ++ ")"
  let last :=
    "return " ++ trampoline ++ "(" ++ mangle inner ++ "(" ++ ", ".intercalate actuals ++ "), " ++
      mangle flag ++ ")"
  head :: ([first] ++ innerLines ++ [last]).map indent

namespace Tree

/-- The name of a tree that has one. -/
def name? : Tree → Option String
  | var name | definition name _ _ _ | entry name _ _ _ _ => some name
  | _ => none

/-- Whether a tree is a literal. -/
def isLiteral : Tree → Bool
  | literal _ => true
  | _ => false

/-- A literal that is called stands in parentheses. -/
def ratorText (rator : Tree) (piece : Piece) : String :=
  if rator.isLiteral then "(" ++ piece.inline ++ ")" else piece.inline

mutual

/-- The piece of text of a compiled tree. -/
def emitPiece : Tree → Emit Piece
  | literal value => do
    let shown ← liftM (literalText value)
    pure (.text shown)
  | var name => pure (.text (mangle name))
  | operation op operands => do
    let pieces ← emitPieces operands
    let sources ←
      if op.isTemplate pieces.length then pure (pieces.map Piece.inline)
      else liftM (pieces.mapM Piece.expression)
    let shown ← liftM (Error.ofFault (op.render sources))
    pure (.text shown)
  | conditional sort test conseq alt =>
    match sort with
    | .converted => do
      let test ← emitPiece test
      let conseq ← emitPiece conseq
      let alt ← emitPiece alt
      pure (.text
        ("(" ++ conseq.inline ++ " if " ++ test.inline ++ " else " ++ alt.inline ++ ")"))
    | .plain =>
      throw (.malformed (.noRule .emission) none (conditional .plain test conseq alt))
    | sort => throw (.breach .stranded (conditional sort test conseq alt))
  | abstraction params body => do
    let body ← emitPiece body
    pure (.text (lambdaText params body.inline))
  | application rator rands => do
    let function ← emitPiece rator
    let pieces ← emitPieces rands
    let sources ← liftM (pieces.mapM Piece.expression)
    pure (.text (ratorText rator function ++ "(" ++ ", ".intercalate sources ++ ")"))
  | definition name params body _ => do
    let body ← emitPiece body
    let body ← liftM body.expression
    pure (.lines (definitionLines name params body))
  | entry name params k flag inner =>
    match inner.name? with
    | none => throw (.fault .missingAttribute)
    | some innerName => do
      let identity ← helperIdent .identity
      let piece ← emitPiece inner
      let makeFlag ← helperIdent .makeFlag
      let trampoline ← helperIdent .trampoline
      pure (.lines
        (entryLines name params k flag innerName identity makeFlag trampoline piece.toLines))
  | program definitions helpers => do
    set helpers
    let imports ← liftM (importLines defaultModule helpers)
    let pieces ← emitPieces definitions
    pure (.text (moduleText imports pieces))
  | continuation arg body => throw (.breach .stranded (continuation arg body))
  | resumption k arg => throw (.breach .stranded (resumption k arg))
  | t => throw (.malformed (.noRule .emission) none t)

/-- The pieces of some trees, from the left. -/
def emitPieces : List Tree → Emit (List Piece)
  | [] => pure []
  | t :: ts => do
    let first ← emitPiece t
    let rest ← emitPieces ts
    pure (first :: rest)

end

/-- The text of a compiled tree, with the given names for the helpers. -/
def emit (t : Tree) (table : HelperTable) : Except Error String :=
  ((emitPiece t).run' table).map Piece.whole

/-- The text of a module for a program that imports its helpers from `source`. -/
def emitProgram (t : Tree) (source : String) : Except Error String :=
  match t with
  | program definitions helpers => do
    let imports ← importLines source helpers
    let pieces ← (emitPieces definitions).run' helpers
    .ok (moduleText imports pieces)
  | t =>
    match t.kind? with
    | none | some .node | some (.conditional .plain) =>
      .error (.malformed (.noRule .emission) none t)
    | some _ => .error (.fault .mismatch)

end Tree

end Springboard
