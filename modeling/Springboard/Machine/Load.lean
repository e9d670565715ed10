import Springboard.Machine.Run

/-!
# Loading modules

A module is loaded into a namespace: first its helpers are bound to their identifiers, then its
entries, in order, each in the place of what had its name before.
-/

namespace Springboard.Machine

namespace Module

/-- The module of a compiled program. It fails if the parameters of a function are not
distinct. -/
def ofProgram (program : Tree) : Except Error Module :=
  match ofProgram? program with
  | some m => if m.isProper then .ok m else .error (.fault .repeatedParameter)
  | none => .error (.fault .mismatch)

end Module

/-- Binds the helpers of a module. -/
def bindImports (imports : List (String × Helper)) (ns : Namespace) : Namespace :=
  imports.foldl (fun ns (ident, helper) => ns.define ident (.helper helper)) ns

/-- Binds some entries, whose functions see the globals of the home. An entry keeps the value
that `identity` has when it is bound. -/
def bindEntries (home : Nat) (identity : String) : List Entry → Namespace → Run Namespace
  | [], ns => pure ns
  | e :: rest, ns => do
    let fallback ← lookup ns [] identity
    let id ← freshId
    bindEntries home identity rest (ns.define e.name (.entry id home e fallback))

/-- Loads a module into the namespace of the home. -/
def Module.load (home : Nat) (m : Module) (ns : Namespace) : Run Namespace :=
  bindEntries home m.identity m.entries (bindImports m.imports ns)

end Springboard.Machine
