import Mathlib.Data.List.Forall2
import Springboard.Operator

/-!
# Operators that keep functions apart

Functions are compared by their identities, and no translation of a program keeps those. Here the
operators get a second reading, in which a comparison of two functions fails; every result that
they have under this reading is also a result under the usual one. Under the second reading an
operator sees of a function only that it is one, so two systems of values that agree on the
numbers give the same results.
-/

namespace Springboard

/-- A binary rule folded over a nonempty list from the left. -/
def Operator.foldBy {V : Type} (rule : V → V → Except Fault V) : List V → Except Fault V
  | [] => .error .mismatch
  | first :: rest => rest.foldlM rule first

/-- A rule that has fewer results than another has fewer of them over a list. -/
theorem Operator.foldBy_of_rule
    {V : Type} {rule rule' : V → V → Except Fault V}
    (hrule : ∀ a b c, rule a b = .ok c → rule' a b = .ok c) {args : List V} {c : V}
    (h : foldBy rule args = .ok c) :
  foldBy rule' args = .ok c
  := by
  cases args with
  | nil => contradiction
  | cons first rest =>
    simp only [foldBy] at h ⊢
    induction rest generalizing first with
    | nil => exact h
    | cons next rest ih =>
      rw [List.foldlM_cons] at h ⊢
      cases hc : rule first next with
      | error e =>
        rw [hc] at h
        contradiction
      | ok d =>
        rw [hc] at h
        rw [hrule _ _ _ hc]
        apply ih _ h

/-- A fold over one more value at the end. -/
theorem Operator.foldBy_append
    {V : Type} (rule : V → V → Except Fault V) {args : List V} (hargs : args ≠ []) (last : V) :
  foldBy rule (args ++ [last]) = foldBy rule args >>= fun a => rule a last
  := by
  cases args with
  | nil => contradiction
  | cons first rest =>
    simp only [List.cons_append, foldBy, List.foldlM_append, List.foldlM_cons, List.foldlM_nil]
    congr 1
    funext a
    cases rule a last <;> rfl

/-- Two results match when both are there and related, or both are missing. -/
inductive Matched {ε ε' α β : Type} (R : α → β → Prop) : Except ε α → Except ε' β → Prop
  | ok {a : α} {b : β} (h : R a b) : Matched R (.ok a) (.ok b)
  | error (e : ε) (e' : ε') : Matched R (.error e) (.error e')

/-- A result that is there is matched by a related one. -/
theorem Matched.forth
    {ε ε' α β : Type} {R : α → β → Prop} {x : Except ε α} {y : Except ε' β} (h : Matched R x y)
    {a : α} (hx : x = .ok a) :
  ∃ b, y = .ok b ∧ R a b
  := by
  cases h with
  | ok h =>
    cases hx
    exact ⟨_, rfl, h⟩
  | error e e' => contradiction

/-- A result that is there matches a related one. -/
theorem Matched.back
    {ε ε' α β : Type} {R : α → β → Prop} {x : Except ε α} {y : Except ε' β} (h : Matched R x y)
    {b : β} (hy : y = .ok b) :
  ∃ a, x = .ok a ∧ R a b
  := by
  cases h with
  | ok h =>
    cases hy
    exact ⟨_, rfl, h⟩
  | error e e' => contradiction

/-- Sequences match when their parts do. -/
theorem Matched.bind
    {ε ε' α β γ δ : Type} {R : α → β → Prop} {Q : γ → δ → Prop}
    {x : Except ε α} {y : Except ε' β} {f : α → Except ε γ} {g : β → Except ε' δ}
    (h : Matched R x y) (hfg : ∀ a b, R a b → Matched Q (f a) (g b)) :
  Matched Q (x >>= f) (y >>= g)
  := by
  cases h with
  | ok h => exact hfg _ _ h
  | error e e' => exact .error e e'

section Meaning

variable {V W : Type} [Operand V] [Operand W]

/-- Binary operators compute numbers. -/
theorem BinaryOp.exists_ofNumber {op : BinaryOp} {a b c : V} (h : op.apply a b = .ok c) :
  ∃ n, c = Operand.ofNumber n
  := by
  unfold BinaryOp.apply at h
  split at h
  · cases h
    exact ⟨_, rfl⟩
  · cases h
    exact ⟨_, rfl⟩
  · split at h
    · rename_i m n _ _
      cases hnumbers : op.onNumbers m n with
      | error e =>
        rw [hnumbers] at h
        contradiction
      | ok k =>
        rw [hnumbers] at h
        cases h
        exact ⟨k, rfl⟩
    · contradiction

/-- The negative of a value is a number. -/
theorem Operand.exists_ofNumber {a b : V} (h : Operand.negate a = .ok b) :
  ∃ n, b = Operand.ofNumber n
  := by
  unfold Operand.negate at h
  split at h
  · cases h
    exact ⟨_, rfl⟩
  · contradiction

/-- A binary operator that refuses to compare two functions. -/
def BinaryOp.apart (isFunction : V → Bool) (op : BinaryOp) (a b : V) : Except Fault V :=
  if (op == .eq || op == .ne) && isFunction a && isFunction b then .error .mismatch
  else op.apply a b

/-- What is computed where functions are kept apart is what is computed. -/
theorem BinaryOp.apply_of_apart
    {isFunction : V → Bool} {op : BinaryOp} {a b c : V} (h : op.apart isFunction a b = .ok c) :
  op.apply a b = .ok c
  := by
  unfold BinaryOp.apart at h
  split at h
  · contradiction
  · exact h

/-- What a binary operator that keeps functions apart computes from the numbers that its
operands are. A function, which is no number, differs from every number. -/
def BinaryOp.onViews (op : BinaryOp) : Option Number → Option Number → Except Fault Number
  | some m, some n => op.onNumbers m n
  | none, none => .error .mismatch
  | _, _ =>
    match op with
    | eq => .ok (.bool false)
    | ne => .ok (.bool true)
    | _ => .error .mismatch

/-- Where all values but the numbers are functions, an operator that keeps functions apart depends
on the numbers alone. -/
theorem BinaryOp.apart_eq_onViews
    {isFunction : V → Bool} {op : BinaryOp} {a b : V}
    (ha : isFunction a = (Operand.number? a).isNone)
    (hb : isFunction b = (Operand.number? b).isNone) :
  op.apart isFunction a b
    = (op.onViews (Operand.number? a) (Operand.number? b)).map Operand.ofNumber
  := by
  unfold BinaryOp.apart BinaryOp.apply Operand.equal
  rw [ha, hb]
  cases Operand.number? a <;> cases Operand.number? b <;> cases op <;> rfl

namespace Operator

/-- What an operator computes when its binary operators follow a rule. -/
def evaluateBy (rule : BinaryOp → V → V → Except Fault V) (op : Operator) (args : List V) :
    Except Fault V :=
  match op.shape, args with
  | .chain b, args => foldBy (rule b) args
  | .difference, [x] => Operand.negate x
  | .difference, args => foldBy (rule .sub) args
  | .pair b, [x, y] => rule b x y
  | .denial, [x] => .ok (Operand.ofBool (!Operand.isTrue x))
  | .against b n, [x] => rule b x (Operand.ofNumber (.int n))
  | _, _ => .error .mismatch

/-- The usual meaning of the operators is that of the usual rule. -/
theorem evaluateBy_apply : evaluateBy (V := V) BinaryOp.apply = evaluate := by
  funext op args
  unfold evaluateBy evaluate
  congr 1

/-- A rule that has fewer results than another has fewer of them for every operator. -/
theorem evaluateBy_of_rule
    {rule rule' : BinaryOp → V → V → Except Fault V}
    (hrule : ∀ b x y z, rule b x y = .ok z → rule' b x y = .ok z)
    {op : Operator} {args : List V} {c : V} (h : evaluateBy rule op args = .ok c) :
  evaluateBy rule' op args = .ok c
  := by
  unfold evaluateBy at h ⊢
  split at h
  · apply foldBy_of_rule (hrule _) h
  · exact h
  · apply foldBy_of_rule (hrule _) h
  · apply hrule _ _ _ _ h
  · exact h
  · apply hrule _ _ _ _ h
  · contradiction

end Operator

/-! ### Two systems of values -/

/-- A relation between two systems of values that agrees on the numbers. All other related values
are functions. -/
structure Correspondence (R : V → W → Prop) (isFunction : V → Bool) (isFunction' : W → Bool) :
    Prop where
  number {a : V} {b : W} : R a b → Operand.number? a = Operand.number? b
  solid {a : V} {b : W} : R a b → Operand.isNothing a = false ∧ Operand.isNothing b = false
  function {a : V} {b : W} :
    R a b → isFunction a = (Operand.number? a).isNone ∧ isFunction' b = (Operand.number? b).isNone
  ofNumber (n : Number) : R (Operand.ofNumber n) (Operand.ofNumber n)

namespace Correspondence

variable {R : V → W → Prop} {isFunction : V → Bool} {isFunction' : W → Bool}
variable (hR : Correspondence R isFunction isFunction')
include hR

/-- Related values are true together. -/
theorem isTrue {a : V} {b : W} (h : R a b) : Operand.isTrue a = Operand.isTrue b := by
  unfold Operand.isTrue
  rw [hR.number h, (hR.solid h).1, (hR.solid h).2]

/-- Related truth values. -/
theorem ofBool (b : Bool) : R (Operand.ofBool b) (Operand.ofBool b) := by
  apply hR.ofNumber

/-- Negatives of related values match. -/
theorem negate {a : V} {b : W} (h : R a b) :
  Matched R (Operand.negate a) (Operand.negate b)
  := by
  unfold Operand.negate
  rw [hR.number h]
  cases Operand.number? b with
  | none => exact .error _ _
  | some n => exact .ok (hR.ofNumber _)

/-- Binary operators that keep functions apart have matching results on related values. -/
theorem apart {a a' : V} {b b' : W} (op : BinaryOp) (h : R a b) (h' : R a' b') :
  Matched R (op.apart isFunction a a') (op.apart isFunction' b b')
  := by
  rw [BinaryOp.apart_eq_onViews (hR.function h).1 (hR.function h').1,
    BinaryOp.apart_eq_onViews (hR.function h).2 (hR.function h').2, hR.number h, hR.number h']
  cases op.onViews (Operand.number? b) (Operand.number? b') with
  | error e => exact .error _ _
  | ok n => exact .ok (hR.ofNumber n)

/-- Folds over related values match. -/
theorem foldBy {args : List V} {args' : List W} (op : BinaryOp) (h : List.Forall₂ R args args') :
  Matched R (Operator.foldBy (op.apart isFunction) args)
    (Operator.foldBy (op.apart isFunction') args')
  := by
  cases h with
  | nil => exact .error _ _
  | @cons a b rest rest' hab hrest =>
    simp only [Operator.foldBy]
    induction hrest generalizing a b with
    | nil => exact .ok hab
    | @cons c d rest rest' hcd hrest ih =>
      rw [List.foldlM_cons, List.foldlM_cons]
      apply (hR.apart op hab hcd).bind
      intro c d hcd
      apply ih hcd

/-- Every operator has matching results on related values. -/
theorem evaluateBy {args : List V} {args' : List W} (op : Operator)
    (h : List.Forall₂ R args args') :
  Matched R (op.evaluateBy (BinaryOp.apart isFunction) args)
    (op.evaluateBy (BinaryOp.apart isFunction') args')
  := by
  have hmissing : ∀ e e' : Fault, Matched R (.error e) (.error e') := .error
  unfold Operator.evaluateBy
  cases op.shape with
  | chain b => exact hR.foldBy b h
  | difference =>
    rcases h with _ | ⟨ha, _ | ⟨hb, hrest⟩⟩
    · apply hmissing
    · exact hR.negate ha
    · exact hR.foldBy .sub (.cons ha (.cons hb hrest))
  | pair b =>
    rcases h with _ | ⟨ha, _ | ⟨hb, _ | hrest⟩⟩
    · apply hmissing
    · apply hmissing
    · exact hR.apart b ha hb
    · apply hmissing
  | denial =>
    rcases h with _ | ⟨ha, _ | hrest⟩
    · apply hmissing
    · exact .ok (hR.isTrue ha ▸ hR.ofBool _)
    · apply hmissing
  | against b n =>
    rcases h with _ | ⟨ha, _ | hrest⟩
    · apply hmissing
    · exact hR.apart b ha (hR.ofNumber _)
    · apply hmissing

end Correspondence

end Meaning

end Springboard
