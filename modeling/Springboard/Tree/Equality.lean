import Springboard.Number.Arithmetic
import Springboard.Tree

/-!
# Equality of trees

Two trees are equal when they have the same kind and equal parts. Literals are equal only when
their sorts are too; stray numbers are equal when their values are. A float that is not a number
is not equal to itself, so `agrees` leaves the comparison of numbers open.
-/

namespace Springboard

/-- Two ways of comparing numbers: inside literals, and as stray values. -/
structure NumberEquality where
  inLiterals : Number → Number → Bool
  asStrays : Number → Number → Bool

namespace Tree

mutual

/-- Whether two trees agree up to a comparison of numbers. -/
def agrees (eq : NumberEquality) : Tree → Tree → Bool
  | blank, blank => true
  | literal m, literal n => eq.inLiterals m n
  | var x, var y => x == y
  | operation f xs, operation g ys => f == g && agreesAll eq xs ys
  | conditional s t c a, conditional s' t' c' a' =>
    s == s' && agrees eq t t' && agrees eq c c' && agrees eq a a'
  | abstraction ps b, abstraction ps' b' => ps == ps' && agrees eq b b'
  | definition f ps b o, definition f' ps' b' o' =>
    f == f' && ps == ps' && agrees eq b b' && o == o'
  | continuation x b, continuation x' b' => x == x' && agrees eq b b'
  | resumption k x, resumption k' x' => agrees eq k k' && agrees eq x x'
  | application f xs, application f' xs' => agrees eq f f' && agreesAll eq xs xs'
  | entry f ps k d i, entry f' ps' k' d' i' =>
    f == f' && ps == ps' && k == k' && d == d' && agrees eq i i'
  | program ds hs, program ds' hs' => agreesAll eq ds ds' && hs == hs'
  | nothing, nothing => true
  | number m, number n => eq.asStrays m n
  | text x, text y => x == y
  | list xs, list ys => agreesAll eq xs ys
  | tuple xs, tuple ys => agreesAll eq xs ys
  | _, _ => false

/-- Whether two lists of trees agree item by item. -/
def agreesAll (eq : NumberEquality) : List Tree → List Tree → Bool
  | [], [] => true
  | x :: xs, y :: ys => agrees eq x y && agreesAll eq xs ys
  | _, _ => false

end

/-- Equality of trees as values. -/
def equal : Tree → Tree → Bool :=
  agrees ⟨Number.equalSorted, Number.equal⟩

/-- Whether two trees are the same down to the bits of their numbers. -/
def same : Tree → Tree → Bool :=
  agrees ⟨fun m n => m == n, fun m n => m == n⟩

mutual

/-- Whether a tree can serve as a key, which lists cannot. -/
def isKey : Tree → Bool
  | list _ => false
  | operation _ items | tuple items | program items _ => areKeys items
  | conditional _ test conseq alt => isKey test && isKey conseq && isKey alt
  | abstraction _ body | definition _ _ body _ | continuation _ body => isKey body
  | resumption k arg => isKey k && isKey arg
  | application rator rands => isKey rator && areKeys rands
  | entry _ _ _ _ inner => isKey inner
  | _ => true

/-- Whether all trees of a list can serve as keys. -/
def areKeys : List Tree → Bool
  | [] => true
  | t :: ts => isKey t && areKeys ts

end

end Tree

end Springboard
