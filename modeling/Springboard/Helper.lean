import Springboard.NameSource

/-!
# Helpers

The four functions that a compiled program refers to besides its own: they hand a value to a
continuation, make a completion flag, return their argument, and bounce until a flag is set.
-/

namespace Springboard

/-- The helpers of a compiled program. -/
inductive Helper
  | applyK | makeFlag | identity | trampoline
  deriving DecidableEq, Repr

namespace Helper

/-- All helpers, in the order of their roles. -/
def all : List Helper :=
  [applyK, makeFlag, identity, trampoline]

/-- The role that a helper plays in a program. -/
def role : Helper → String
  | applyK => "apply_k"
  | makeFlag => "flag"
  | identity => "identity"
  | trampoline => "trampoline"

/-- The name under which a helper is exported. -/
def exportName : Helper → String
  | applyK => "apply_k"
  | makeFlag => "make_flag"
  | identity => "identity"
  | trampoline => "trampoline"

/-- The helper of the given role. -/
def ofRole? (role : String) : Option Helper :=
  all.find? fun helper => helper.role == role

end Helper

/-- A fresh name for each of some helpers, under its role. -/
def namesFor : List Helper → NameSource → List (String × String) × NameSource
  | [], names => ([], names)
  | helper :: rest, names =>
    let (name, names) := names.fresh helper.role
    let (table, names) := namesFor rest names
    ((helper.role, name) :: table, names)

/-- A fresh name for each helper, under its role. -/
def helperNames (names : NameSource) : List (String × String) × NameSource :=
  namesFor Helper.all names

end Springboard
