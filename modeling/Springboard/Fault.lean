/-!
# Faults

What can go wrong while a value is computed or a number is written, apart from complaints
about the shape of a program.
-/

namespace Springboard

/-- The ways in which a computation can fail. -/
inductive Fault
  /-- An operation was given a value of a kind it has no meaning for, or a function was given
  the wrong number of arguments. -/
  | mismatch
  /-- A closure of the evaluator was given the wrong number of arguments. -/
  | arity (name : String) (wanted given : Nat)
  /-- A name has no value. -/
  | unbound (name : String)
  /-- A division by zero. -/
  | zeroDivision
  /-- A number is too large for a float. -/
  | overflow
  /-- An integer has more digits than are read or written. -/
  | tooManyDigits
  /-- A look-up under a key that is not there. -/
  | missingKey
  /-- A part was asked of a value that has no such part. -/
  | missingAttribute
  /-- A tree of the given kind was to be changed in place. -/
  | immutable (kind : String)
  /-- The compiler was given parameters it does not know. -/
  | unknownParameters (names : List String)
  /-- Two parameters of one function have the same identifier. -/
  | repeatedParameter
  /-- A file or directory is not there. -/
  | missingFile
  deriving DecidableEq, Repr

end Springboard
