import Springboard.Error
import Springboard.Helper
import Springboard.Tree.Build
import Springboard.Tree.Convert

/-!
# Entries

Each suspended definition becomes an entry around a renamed copy of itself. The entry makes a
completion flag, takes the first step of the copy, and bounces until the flag is set.
-/

namespace Springboard.Tree

/-- A top-level tree that is no definition becomes the body of one without parameters. -/
def wrapEntry (t entry : Tree) : Except Error Tree :=
  if t.isDefinition then .ok t else definitionOf entry [] t none

/-- Whether a body is suspended. -/
def isDelayed : Tree → Bool
  | abstraction [] _ => true
  | _ => false

/-- The entry of a converted and suspended definition. -/
def toEntry : Tree → Naming Tree
  | t@(definition name params body own) =>
    match own, params.getLast? with
    | some own, some k =>
      if body.isDelayed then do
        let flag ← freshName "done"
        pure (entry name params.dropLast k flag (definition own params body none))
      else throw (.breach .notSuspended t)
    | _, _ => throw (.breach .notConverted t)
  | t@(entry _ _ _ _ _) => throw (.breach .alreadyTrampolined t)
  | t => refuse (.noRule .trampolining) t

/-- The entries of some definitions, from the left. -/
def toEntries : List Tree → Naming (List Tree)
  | [] => pure []
  | t :: ts => do
    let first ← toEntry t
    let rest ← toEntries ts
    pure (first :: rest)

/-- The program of some definitions, with the names its helpers are bound to. -/
def toProgram (helpers : List (String × String)) (definitions : List Tree) : Naming Tree := do
  let entries ← toEntries definitions
  pure (programOf entries helpers)

end Springboard.Tree
