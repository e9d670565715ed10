import Springboard.Error
import Springboard.NameSource
import Springboard.Tree.Build
import Springboard.Tree.Rename

/-!
# Explicit continuations

A trivial tree is a value and stays in place. Every serious tree is changed so that it hands its
value to a continuation: a variable that names one, or a `continuation` node with the rest of
the computation. Serious operands are bound to fresh variables, and are computed from left to
right.
-/

namespace Springboard

/-- Computations that draw fresh names and may fail. -/
abbrev Naming := StateT NameSource (Except Error)

/-- A fresh name. -/
def freshName (base : String) : Naming String :=
  fun names => .ok (names.fresh base)

namespace Tree

/-- Fails with a complaint about a tree. -/
def refuse {α : Type} (complaint : Complaint) (subject : Tree) : Naming α :=
  throw (.malformed complaint none subject)

/-- Hands a value to a continuation, if there is one. -/
def deliver (k? : Option Tree) (value : Tree) : Tree :=
  match k? with
  | some k => resumption k value
  | none => value

/-- A tree that can stand for a continuation. -/
def isContinuation : Tree → Bool
  | var _ | continuation _ _ => true
  | _ => false

mutual

/-- Conversion of a tree. With a continuation the value of the tree is handed to it; without one
the tree has to be trivial, and remains a value. -/
def convertNode (k? : Option Tree) : Tree → Naming Tree
  | literal value => pure (deliver k? (literal value))
  | var name => pure (deliver k? (var name))
  | continuation arg body => pure (deliver k? (continuation arg body))
  | abstraction params body => do
    let k ← freshName "k"
    let body ← convertNode (some (var k)) body
    pure (deliver k? (abstraction (params ++ [k]) body))
  | operation op operands =>
    if allTrivial operands then do
      let operands ← convertValues operands
      pure (deliver k? (operation op operands))
    else
      match k? with
      | none => refuse .seriousInTrivial (operation op operands)
      | some k => do
        let (parts, pending) ← convertParts operands
        convertPending operands pending (resumption k (operation op parts))
  | conditional sort test conseq alt =>
    match sort, k? with
    | .trivial, k? => do
      let test ← convertNode none test
      let conseq ← convertNode none conseq
      let alt ← convertNode none alt
      pure (deliver k? (conditional .converted test conseq alt))
    | .converted, k? => pure (deliver k? (conditional .converted test conseq alt))
    | .serious, some k => do
      let conseq ← convertNode (some k) conseq
      let alt ← convertNode (some k) alt
      if test.isTrivial then do
        let test ← convertNode none test
        pure (conditional .converted test conseq alt)
      else do
        let s ← freshName "s"
        convertNode (some (continuation s (conditional .converted (var s) conseq alt))) test
    | .plain, some _ => refuse (.noRule .conversion) (conditional .plain test conseq alt)
    | sort, none => refuse .seriousInTrivial (conditional sort test conseq alt)
  | application rator rands =>
    match k? with
    | none => refuse .seriousInTrivial (application rator rands)
    | some k =>
      if rator.isTrivial then do
        let function ← convertNode none rator
        let (parts, pending) ← convertParts rands
        convertPending rands pending (application function (parts ++ [k]))
      else do
        let s ← freshName "s"
        let (parts, pending) ← convertParts rands
        let rest ← convertPending rands pending (application (var s) (parts ++ [k]))
        convertNode (some (continuation s rest)) rator
  | definition name params body own =>
    match k? with
    | none => refuse .seriousInTrivial (definition name params body own)
    | some _ => refuse .nestedDefinition (definition name params body own)
  | t =>
    if t.isNode && k?.isNone then refuse .seriousInTrivial t
    else refuse (.noRule .conversion) t

/-- Conversion of trivial trees, from the left. -/
def convertValues : List Tree → Naming (List Tree)
  | [] => pure []
  | t :: ts => do
    let first ← convertNode none t
    let rest ← convertValues ts
    pure (first :: rest)

/-- The values that stand for some parts, from the left: a trivial part is converted, and a
serious one is represented by a fresh variable, whose name is listed beside it. -/
def convertParts : List Tree → Naming (List Tree × List (Option String))
  | [] => pure ([], [])
  | t :: ts =>
    if t.isTrivial then do
      let value ← convertNode none t
      let (values, pending) ← convertParts ts
      pure (value :: values, none :: pending)
    else do
      let s ← freshName "s"
      let (values, pending) ← convertParts ts
      pure (var s :: values, some s :: pending)

/-- Puts the computations of the serious parts in front of a tree, so that the leftmost is
computed first. -/
def convertPending : List Tree → List (Option String) → Tree → Naming Tree
  | t :: ts, some s :: pending, result => do
    let result ← convertPending ts pending result
    convertNode (some (continuation s result)) t
  | _ :: ts, none :: pending, result => convertPending ts pending result
  | _, _, result => pure result

end

/-- Conversion of a tree, with a continuation or without. -/
def convert (t : Tree) (k? : Option Tree) : Naming Tree :=
  match k? with
  | none => convertNode none t
  | some k =>
    if !t.isNode then refuse (.noRule .conversion) t
    else if !k.isContinuation then throw (.breach .notContinuation k)
    else convertNode (some k) t

/-- Conversion of a definition. Its references to itself are renamed to a fresh name, and a
parameter for the continuation is added. -/
def convertDefinition : Tree → Naming Tree
  | definition name params body _ => do
    let own ← freshName name
    let k ← freshName "k"
    let body ← if params.contains name then pure body else liftM (rename name own body)
    let body ← convert body (some (var k))
    pure (definition name (params ++ [k]) body (some own))
  | t => refuse .notDefinition t

end Tree

end Springboard
