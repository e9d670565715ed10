/-!
# Sorted lists

Sorting by insertion. Items that are not told apart by the order keep the order they came in.
-/

namespace Springboard

/-- Inserts an item before the first that does not come before it. -/
def insertSorted {α : Type} (le : α → α → Bool) (x : α) : List α → List α
  | [] => [x]
  | y :: ys => if le x y then x :: y :: ys else y :: insertSorted le x ys

/-- The items of a list in order. -/
def sorted {α : Type} (le : α → α → Bool) : List α → List α
  | [] => []
  | x :: xs => insertSorted le x (sorted le xs)

/-- Texts in the order of their characters. -/
def sortedTexts (texts : List String) : List String :=
  sorted (fun a b => decide (a ≤ b)) texts

end Springboard
