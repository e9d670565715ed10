import Springboard.Proofs.Emission

/-!
# Nodes of the trees that are read

Whatever a text says, the trees that are read from it consist of nodes of the surface syntax only.
Main statement: throughout such a tree, every child is a node of one of eight kinds, definitions
have not been converted, operators have as many operands as they accept, and a conditional counts as
trivial just when its three parts are trivial, be it written out or made by a connective.
-/

namespace Springboard

/-- The kinds of nodes of the surface syntax. -/
def Kind.isSurface : Kind → Bool
  | .literal | .var | .operation | .conditional .trivial | .conditional .serious | .abstraction
  | .definition | .application => true
  | _ => false

/-- How a node of the surface syntax looks. -/
structure WellRead (t : Tree) : Prop where
  /-- It is a node of the surface syntax, and no stray value. -/
  kind : t.kind?.any Kind.isSurface
  /-- Its children are nodes too. -/
  children : ∀ c ∈ t.children, c.isNode
  /-- A definition has no fresh name for itself. -/
  own : ∀ name params body own, t = .definition name params body own → own = none
  /-- An operator has a number of operands that it accepts. -/
  operands : ∀ op operands, t = .operation op operands → op.accepts operands.length
  /-- A conditional is trivial just when its parts are. -/
  classified : ∀ sort test conseq alt, t = .conditional sort test conseq alt →
    (sort = .trivial ↔ test.isTrivial ∧ conseq.isTrivial ∧ alt.isTrivial)

/-- The conditional of three parts is trivial just when they are, and else serious. -/
theorem Tree.choose_eq (test conseq alt : Tree) :
  ∃ sort, Tree.choose test conseq alt = .conditional sort test conseq alt
    ∧ (Kind.conditional sort).isSurface
    ∧ (sort = .trivial ↔ test.isTrivial ∧ conseq.isTrivial ∧ alt.isTrivial)
  := by
  unfold Tree.choose
  split
  · rename_i h
    simp only [Bool.and_eq_true, and_assoc] at h
    exact ⟨.trivial, rfl, rfl, iff_of_true rfl h⟩
  · rename_i h
    simp only [Bool.and_eq_true, and_assoc] at h
    exact ⟨.serious, rfl, rfl, iff_of_false (by simp) h⟩

namespace Built

/-- What a form means is a node. -/
theorem isNode {t : Tree} (h : Built t) : t.isNode := by
  cases h with
  | @choose test conseq alt _ _ _ =>
    obtain ⟨sort, hchoose, -, -⟩ := Tree.choose_eq test conseq alt
    rw [hchoose]
    rfl
  | _ => rfl

/-- The children of what a form means are put together in the same ways. -/
theorem of_mem_children {t : Tree} (h : Built t) {c : Tree} (hc : c ∈ t.children) : Built c := by
  cases h with
  | literal value => contradiction
  | var name => contradiction
  | operation _ hoperands => exact hoperands c hc
  | @choose test conseq alt htest hconseq halt =>
    obtain ⟨sort, hchoose, -, -⟩ := Tree.choose_eq test conseq alt
    rw [hchoose] at hc
    simp only [Tree.children, List.mem_cons, List.not_mem_nil, or_false] at hc
    obtain rfl | rfl | rfl := hc
    · exact htest
    · exact hconseq
    · exact halt
  | abstraction params hbody =>
    cases List.mem_singleton.mp hc
    exact hbody
  | definition name params hbody =>
    cases List.mem_singleton.mp hc
    exact hbody
  | application hrator hrands => exact List.forall_mem_cons.mpr ⟨hrator, hrands⟩ c hc

/-- What stands in the tree of a form is put together in the same ways. -/
theorem of_contains {t u : Tree} (h : Built t) (hu : t.Contains u) : Built u := by
  induction hu with
  | refl => exact h
  | tail _ hc ih => exact ih.of_mem_children hc

/-- What a form means looks like a node of the surface syntax. -/
theorem wellRead {t : Tree} (h : Built t) : WellRead t := by
  have hchildren : ∀ c ∈ t.children, c.isNode := fun c hc => (h.of_mem_children hc).isNode
  cases h with
  | operation hcount _ =>
    refine ⟨rfl, hchildren, by simp, ?_, by simp⟩
    rintro op operands ⟨⟩
    exact hcount
  | @choose test conseq alt _ _ _ =>
    obtain ⟨sort, hchoose, hkind, hsort⟩ := Tree.choose_eq test conseq alt
    rw [hchoose] at hchildren ⊢
    refine ⟨hkind, hchildren, by simp, by simp, ?_⟩
    rintro sort' test' conseq' alt' ⟨⟩
    exact hsort
  | definition name params _ =>
    refine ⟨rfl, hchildren, ?_, by simp, by simp⟩
    rintro name' params' body own ⟨⟩
    rfl
  | _ => exact ⟨rfl, hchildren, by simp, by simp, by simp⟩

end Built

/-- **What is read is well formed throughout.** Every node of a tree that is read from a text, at
any depth, looks like a node of the surface syntax. -/
theorem wellRead_of_readAll {text : String} {ts : List Tree} (h : Tree.readAll text = .ok ts)
    {t u : Tree} (ht : t ∈ ts) (hu : t.Contains u) :
  WellRead u
  := by
  exact ((built_of_readAll h ht).of_contains hu).wellRead

/-- A connective that is an operand of another one. -/
def nestedConnectives : String :=
  "(or x (and (f 1) (fn () y)))"

/-- The conditional that the inner connective becomes, on the variable that its first operand is
bound to. -/
def innerConditional : Tree :=
  .conditional .trivial (.var "and__") (.abstraction [] (.var "y")) (.var "and__")

/-- The binding of that operand. -/
def innerBinding : Tree :=
  .application (.abstraction ["and__"] innerConditional)
    [.application (.var "f") [.literal (.int 1)]]

/-- The conditional that the outer connective becomes. -/
def outerConditional : Tree :=
  .conditional .serious (.var "x") (.var "x") innerBinding

/-- The conditional of the inner connective is trivial, for its three parts are. -/
theorem wellRead_of_readAll_nestedConnectives :
  Tree.readAll nestedConnectives = .ok [outerConditional]
    ∧ outerConditional.Contains innerConditional ∧ WellRead innerConditional
  := by
  have hread : Tree.readAll nestedConnectives = .ok [outerConditional] := by
    cbv
  have hcontains : outerConditional.Contains innerConditional := by
    have hbinding : innerBinding.Contains innerConditional :=
      .head List.mem_cons_self (.single List.mem_cons_self)
    exact .head (by simp [outerConditional, Tree.children]) hbinding
  exact ⟨hread, hcontains, wellRead_of_readAll hread (List.mem_singleton_self _) hcontains⟩

end Springboard
