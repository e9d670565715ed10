import Springboard.Proofs.Emission
import Springboard.Proofs.FreeVariables

/-!
# Walks through the children of a node

Renaming and abstraction treat most kinds of nodes alike: they go through the children in order,
stop at the first that they fail on, and put a node of the same kind together again. Here this is
said once for all kinds, so that what follows goes by induction on children rather than by cases
on the kinds.
-/

namespace Springboard

/-! ### Steps along a list -/

section Steps

variable {α β : Type} {f : α → Except Error β}

/-- Steps along a list succeed just when each of them does. -/
theorem mapM_eq_ok {as : List α} {bs : List β} :
  as.mapM f = .ok bs ↔ List.Forall₂ (fun a b => f a = .ok b) as bs
  := by
  induction as generalizing bs with
  | nil =>
    rw [List.mapM_nil, List.forall₂_nil_left_iff]
    constructor
    · intro h
      cases h
      rfl
    · rintro rfl
      rfl
  | cons a as ih =>
    simp only [List.mapM_cons, Except.bind_eq_ok, ih]
    constructor
    · rintro ⟨b, hb, bs', hbs, h⟩
      cases h
      exact .cons hb hbs
    · intro h
      cases h with
      | cons hb hbs => exact ⟨_, hb, _, hbs, rfl⟩

/-- What holds of each step holds of the lists item by item. -/
theorem forall₂_of_mapM {R : α → β → Prop} {as : List α} {bs : List β} (h : as.mapM f = .ok bs)
    (hR : ∀ a ∈ as, ∀ b, f a = .ok b → R a b) :
  List.Forall₂ R as bs
  := by
  have hmem : List.Forall₂ (fun a b => a ∈ as ∧ f a = .ok b) as bs := by
    rw [List.forall₂_and_left]
    exact ⟨fun a ha => ha, mapM_eq_ok.mp h⟩
  apply hmem.imp
  intro a b hab
  exact hR a hab.1 b hab.2

/-- Of two lists that are related item by item, one has an item wherever the other has. -/
theorem exists_getElem?_of_forall₂ {R : α → β → Prop} {as : List α} {bs : List β}
    (h : List.Forall₂ R as bs) {i : Nat} {a : α} (ha : as[i]? = some a) :
  ∃ b, bs[i]? = some b ∧ R a b
  := by
  induction h generalizing i with
  | nil => contradiction
  | cons hfirst _ ih =>
    cases i with
    | zero =>
      cases ha
      exact ⟨_, rfl, hfirst⟩
    | succ i => exact ih ha

/-- Steps along a list that fail have the error of the first that fails. -/
theorem exists_of_mapM_eq_error {as : List α} {e : Error} (h : as.mapM f = .error e) :
  ∃ (i : Nat) (a : α), as[i]? = some a ∧ f a = .error e
    ∧ ∀ (j : Nat) (a' : α), j < i → as[j]? = some a' → ∃ b, f a' = .ok b
  := by
  induction as with
  | nil => contradiction
  | cons a as ih =>
    rw [List.mapM_cons] at h
    cases ha : f a with
    | error e' =>
      rw [ha] at h
      cases h
      refine ⟨0, a, rfl, ha, ?_⟩
      intro j a' hj
      exact absurd hj (Nat.not_lt_zero j)
    | ok b =>
      cases has : as.mapM f with
      | ok bs =>
        rw [ha, has] at h
        contradiction
      | error e' =>
        rw [ha, has] at h
        cases h
        obtain ⟨i, a', ha', he, hbefore⟩ := ih has
        refine ⟨i + 1, a', ha', he, ?_⟩
        intro j a'' hj ha''
        cases j with
        | zero =>
          cases ha''
          exact ⟨b, ha⟩
        | succ j => exact hbefore j a'' (Nat.lt_of_succ_lt_succ hj) ha''

end Steps

namespace Tree

/-! ### Nodes and their children -/

/-- A child is smaller than its node. -/
theorem sizeOf_lt_of_mem_children {t c : Tree} (h : c ∈ t.children) : sizeOf c < sizeOf t := by
  cases t with
  | operation op items | program items helpers =>
    rw [children] at h
    have hitems := List.sizeOf_lt_of_mem h
    simp only [operation.sizeOf_spec, program.sizeOf_spec]
    omega
  | application rator rands =>
    obtain rfl | h := List.mem_cons.mp h
    · simp only [application.sizeOf_spec]
      omega
    · have hrands := List.sizeOf_lt_of_mem h
      simp only [application.sizeOf_spec]
      omega
  | conditional sort test conseq alt =>
    simp only [children, List.mem_cons, List.not_mem_nil, or_false] at h
    simp only [conditional.sizeOf_spec]
    obtain rfl | rfl | rfl := h <;> omega
  | resumption k arg =>
    simp only [children, List.mem_cons, List.not_mem_nil, or_false] at h
    simp only [resumption.sizeOf_spec]
    obtain rfl | rfl := h <;> omega
  | abstraction params body | definition name params body own | continuation arg body
  | entry name params k flag inner =>
    cases List.mem_singleton.mp h
    simp only [abstraction.sizeOf_spec, definition.sizeOf_spec, continuation.sizeOf_spec,
      entry.sizeOf_spec]
    omega
  | _ => contradiction

/-- Induction on children: what holds of a tree if it holds of its children holds of every tree. -/
theorem child_induction {P : Tree → Prop} (h : ∀ t, (∀ c ∈ t.children, P c) → P t) (t : Tree) :
  P t
  := by
  apply h t
  intro c hc
  have hlt := sizeOf_lt_of_mem_children hc
  exact child_induction h c
termination_by sizeOf t

/-- What stands in a child stands in the node. -/
theorem contains_of_child {t c u : Tree} (hc : c ∈ t.children) (hu : c.Contains u) :
  t.Contains u
  := by
  exact contains_iff.mpr (.inr ⟨c, hc, hu⟩)

/-- Whether a test holds throughout a tree, as far as a number of levels goes; the tree must not be
deeper. -/
def passes (test : Tree → Bool) : Nat → Tree → Bool
  | 0, _ => false
  | levels + 1, t => test t && t.children.all (passes test levels)

/-- A test that holds throughout a tree holds of what stands in it. -/
theorem of_passes {test : Tree → Bool} {levels : Nat} {t : Tree} (h : passes test levels t)
    {u : Tree} (hu : t.Contains u) :
  test u
  := by
  induction levels generalizing t with
  | zero => contradiction
  | succ levels ih =>
    rw [passes, Bool.and_eq_true, List.all_eq_true] at h
    obtain rfl | ⟨c, hc, hu⟩ := contains_iff.mp hu
    · exact h.1
    · exact ih (h.2 c hc) hu

/-- The names that a node hides from outside: the parameters of a function or a definition, and what
a continuation waits for. -/
def hides : Tree → List String
  | abstraction params _ | definition _ params _ _ => params
  | continuation arg _ => [arg]
  | _ => []

/-- A node with its own children is the node. -/
theorem withChildren_children (t : Tree) : t.withChildren t.children = t := by
  cases t <;> rfl

/-- What holds of a node that was given other children. -/
structure Rebuilt (t : Tree) (cs : List Tree) (u : Tree) : Prop where
  children : u.children = cs
  kind : u.kind? = t.kind?
  hides : u.hides = t.hides
  binders : u.binders = t.binders
  /-- Given the old children, it is the old node. -/
  undo : u.withChildren t.children = t

/-- A node can be given as many other children as it has. -/
theorem rebuilt_withChildren {t : Tree} {cs : List Tree} (h : cs.length = t.children.length) :
  Rebuilt t cs (t.withChildren cs)
  := by
  cases t with
  | operation op items | program items helpers => exact ⟨rfl, rfl, rfl, rfl, rfl⟩
  | application rator rands =>
    cases cs with
    | nil => contradiction
    | cons c cs => exact ⟨rfl, rfl, rfl, rfl, rfl⟩
  | conditional sort test conseq alt =>
    obtain ⟨a, b, c, rfl⟩ := List.length_eq_three.mp h
    exact ⟨rfl, rfl, rfl, rfl, rfl⟩
  | resumption k arg =>
    obtain ⟨a, b, rfl⟩ := List.length_eq_two.mp h
    exact ⟨rfl, rfl, rfl, rfl, rfl⟩
  | abstraction params body | definition name params body own | continuation arg body
  | entry name params k flag inner =>
    obtain ⟨a, rfl⟩ := List.length_eq_one_iff.mp h
    exact ⟨rfl, rfl, rfl, rfl, rfl⟩
  | _ =>
    cases List.length_eq_zero_iff.mp h
    exact ⟨rfl, rfl, rfl, rfl, rfl⟩

/-- A node that is given other children is a variable only if it was. -/
theorem eq_var_of_withChildren {t : Tree} {cs : List Tree} (h : cs.length = t.children.length)
    {x : String} (heq : t.withChildren cs = var x) :
  t = var x
  := by
  have hrebuilt := rebuilt_withChildren h
  have hundo := hrebuilt.undo
  rw [heq] at hundo
  exact hundo.symm

end Tree

end Springboard
