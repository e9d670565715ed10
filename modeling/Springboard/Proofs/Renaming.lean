import Springboard.Proofs.Surface
import Springboard.Tree.Rename

/-!
# Renaming as a function

On surface trees renaming never fails. It is given here as a function, together with the case
that nothing is renamed, which is what a binder of the old name leaves of a renaming. A renaming
changes neither the shape of a tree nor what is trivial in it.
-/

namespace Springboard

/-- An old and a new name, or no renaming at all. -/
abbrev Renaming := Option (String × String)

namespace Renaming

/-- The new name of a variable. -/
def name (r : Renaming) (x : String) : String :=
  match r with
  | some (old, new) => if x == old then new else x
  | none => x

/-- A name is renamed, or stays as it is. -/
theorem name_cases (r : Renaming) (x : String) :
  (∃ new, r = some (x, new) ∧ r.name x = new) ∨ r.name x = x
  := by
  match r with
  | none =>
    right
    rfl
  | some (old, new) =>
    by_cases h : x = old
    · left
      subst h
      exact ⟨new, rfl, if_pos (beq_self_eq_true x)⟩
    · right
      exact if_neg (by simpa using h)

/-- What is left of a renaming below a binder of some names. -/
def under (r : Renaming) (params : List String) : Renaming :=
  r.filter fun p => !params.contains p.1

mutual

/-- The tree with its free variables renamed. -/
def tree (r : Renaming) : Tree → Tree
  | .literal value => .literal value
  | .var x => .var (r.name x)
  | .operation op operands => .operation op (trees r operands)
  | .conditional sort test conseq alt =>
    .conditional sort (tree r test) (tree r conseq) (tree r alt)
  | .abstraction params body => .abstraction params (tree (r.under params) body)
  | .definition name params body own => .definition name params (tree (r.under params) body) own
  | .application rator rands => .application (tree r rator) (trees r rands)
  | t => t

/-- Some trees with their free variables renamed. -/
def trees (r : Renaming) : List Tree → List Tree
  | [] => []
  | t :: ts => tree r t :: trees r ts

end

/-- Trees are renamed one by one. -/
theorem trees_eq_map (r : Renaming) (ts : List Tree) : r.trees ts = ts.map r.tree := by
  induction ts with
  | nil => rw [trees, List.map_nil]
  | cons t ts ih => rw [trees, List.map_cons, ih]

/-- Without a renaming there is nothing left below a binder. -/
theorem under_none (params : List String) : under none params = none := by
  rfl

/-- Below a binder of the old name nothing is renamed. -/
theorem under_of_mem {old new : String} {params : List String} (h : params.contains old) :
  under (some (old, new)) params = none
  := by
  simp only [under, Option.filter, h, Bool.not_true, Bool.false_eq_true, if_false]

/-- A binder of other names leaves a renaming alone. -/
theorem under_of_notMem {old new : String} {params : List String} (h : ¬ params.contains old) :
  under (some (old, new)) params = some (old, new)
  := by
  rw [Bool.not_eq_true] at h
  simp only [under, Option.filter, h, Bool.not_false, if_true]

/-- Renaming nothing changes nothing. -/
theorem tree_none {nested : Bool} {t : Tree} (h : Surface nested t) : tree none t = t := by
  induction h with
  | literal value => rw [tree]
  | var x => rw [tree, name]
  | operation _ _ ih =>
    rw [tree, trees_eq_map, List.map_congr_left ih, List.map_id']
  | trivialConditional _ _ _ _ ihtest ihconseq ihalt => rw [tree, ihtest, ihconseq, ihalt]
  | seriousConditional _ _ _ ihtest ihconseq ihalt => rw [tree, ihtest, ihconseq, ihalt]
  | abstraction params _ ih => rw [tree, under_none, ih]
  | definition name params _ _ ih => rw [tree, under_none, ih]
  | application _ _ ihrator ihrands =>
    rw [tree, ihrator, trees_eq_map, List.map_congr_left ihrands, List.map_id']

/-- Renaming a name that does not occur changes nothing. -/
theorem tree_of_notMem
    {nested : Bool} {t : Tree} (h : Surface nested t) {old : String} (hold : old ∉ t.names)
    (new : String) :
  tree (some (old, new)) t = t
  := by
  induction h with
  | literal value => rw [tree]
  | var x =>
    rw [Tree.names, List.mem_singleton] at hold
    rw [tree, name, if_neg (by simpa using Ne.symm hold)]
  | operation _ _ ih =>
    rw [Tree.names, Tree.mem_namesAll] at hold
    push Not at hold
    rw [tree, trees_eq_map, List.map_congr_left fun t ht => ih t ht (hold t ht), List.map_id']
  | trivialConditional _ _ _ _ ihtest ihconseq ihalt =>
    simp only [Tree.names, List.mem_append, not_or] at hold
    rw [tree, ihtest hold.1.1, ihconseq hold.1.2, ihalt hold.2]
  | seriousConditional _ _ _ ihtest ihconseq ihalt =>
    simp only [Tree.names, List.mem_append, not_or] at hold
    rw [tree, ihtest hold.1.1, ihconseq hold.1.2, ihalt hold.2]
  | abstraction params _ ih =>
    simp only [Tree.names, List.mem_append, not_or] at hold
    rw [tree, under_of_notMem (by simpa using hold.1), ih hold.2]
  | definition name params _ _ ih =>
    simp only [Tree.names, List.mem_append, List.mem_cons, not_or] at hold
    rw [tree, under_of_notMem (by simpa using hold.1.2), ih hold.2]
  | application _ _ ihrator ihrands =>
    simp only [Tree.names, List.mem_append, Tree.mem_namesAll, not_or] at hold
    obtain ⟨hrator, hrands⟩ := hold
    push Not at hrands
    rw [tree, ihrator hrator, trees_eq_map,
      List.map_congr_left fun t ht => ihrands t ht (hrands t ht), List.map_id']

/-- Renaming in a list succeeds when it succeeds in its trees. -/
theorem renameAll_eq
    {old new : String} {ts : List Tree}
    (h : ∀ t ∈ ts, t.rename old new = .ok (tree (some (old, new)) t)) :
  Tree.renameAll old new ts = .ok (trees (some (old, new)) ts)
  := by
  induction ts with
  | nil => rw [Tree.renameAll, trees]
  | cons t ts ih =>
    rw [Tree.renameAll, trees, h t List.mem_cons_self, ih fun t ht => h t (List.mem_cons_of_mem _ ht)]
    rfl

/-- Renaming a surface tree succeeds. -/
theorem rename_eq {nested : Bool} {t : Tree} (h : Surface nested t) (old new : String) :
  t.rename old new = .ok (tree (some (old, new)) t)
  := by
  induction h with
  | literal value => rw [Tree.rename, tree]
  | var x => rw [Tree.rename, tree, name]
  | operation _ _ ih =>
    rw [Tree.rename, tree, renameAll_eq ih]
    rfl
  | trivialConditional _ _ _ _ ihtest ihconseq ihalt =>
    rw [Tree.rename, tree, ihtest, ihconseq, ihalt]
    rfl
  | seriousConditional _ _ _ ihtest ihconseq ihalt =>
    rw [Tree.rename, tree, ihtest, ihconseq, ihalt]
    rfl
  | abstraction params hbody ih =>
    rw [Tree.rename, tree]
    split
    · rename_i hmem
      rw [under_of_mem hmem, tree_none hbody]
    · rename_i hmem
      rw [under_of_notMem hmem, ih]
      rfl
  | definition name params _ hbody ih =>
    rw [Tree.rename, tree]
    split
    · rename_i hmem
      rw [under_of_mem hmem, tree_none hbody]
    · rename_i hmem
      rw [under_of_notMem hmem, ih]
      rfl
  | application _ _ ihrator ihrands =>
    rw [Tree.rename, tree, ihrator, renameAll_eq ihrands]
    rfl

mutual

/-- Renaming does not change whether a tree is trivial. -/
theorem isTrivial_tree : ∀ (r : Renaming) (t : Tree), (r.tree t).isTrivial = t.isTrivial
  | r, .operation op operands => by
      rw [tree, Tree.isTrivial, Tree.isTrivial, allTrivial_trees r operands]
  | r, .literal _ | r, .var _ | r, .conditional _ _ _ _ | r, .abstraction _ _
  | r, .definition _ _ _ _ | r, .application _ _ | r, .blank | r, .continuation _ _
  | r, .resumption _ _ | r, .entry _ _ _ _ _ | r, .program _ _ | r, .nothing | r, .number _
  | r, .text _ | r, .list _ | r, .tuple _ => by
      simp only [tree, Tree.isTrivial]

/-- Renaming does not change whether some trees are trivial. -/
theorem allTrivial_trees : ∀ (r : Renaming) (ts : List Tree),
    Tree.allTrivial (r.trees ts) = Tree.allTrivial ts
  | r, [] => by
      rw [trees]
  | r, t :: ts => by
      rw [trees, Tree.allTrivial, Tree.allTrivial, isTrivial_tree r t, allTrivial_trees r ts]

end

mutual

/-- Renaming does not change whether a tree holds a definition. -/
theorem holdsDefinition_tree :
    ∀ (r : Renaming) (t : Tree), (r.tree t).holdsDefinition = t.holdsDefinition
  | r, .operation op operands => by
      rw [tree, Tree.holdsDefinition, Tree.holdsDefinition, anyHoldsDefinition_trees r operands]
  | r, .conditional _ test conseq alt => by
      rw [tree, Tree.holdsDefinition, Tree.holdsDefinition, holdsDefinition_tree r test,
        holdsDefinition_tree r conseq, holdsDefinition_tree r alt]
  | r, .abstraction params body => by
      rw [tree, Tree.holdsDefinition, Tree.holdsDefinition, holdsDefinition_tree _ body]
  | r, .application rator rands => by
      rw [tree, Tree.holdsDefinition, Tree.holdsDefinition, holdsDefinition_tree r rator,
        anyHoldsDefinition_trees r rands]
  | r, .literal _ | r, .var _ | r, .definition _ _ _ _ | r, .blank | r, .continuation _ _
  | r, .resumption _ _ | r, .entry _ _ _ _ _ | r, .program _ _ | r, .nothing | r, .number _
  | r, .text _ | r, .list _ | r, .tuple _ => by
      simp only [tree, Tree.holdsDefinition]

/-- Renaming does not change whether some trees hold a definition. -/
theorem anyHoldsDefinition_trees : ∀ (r : Renaming) (ts : List Tree),
    Tree.anyHoldsDefinition (r.trees ts) = Tree.anyHoldsDefinition ts
  | r, [] => by
      rw [trees]
  | r, t :: ts => by
      rw [trees, Tree.anyHoldsDefinition, Tree.anyHoldsDefinition, holdsDefinition_tree r t,
        anyHoldsDefinition_trees r ts]

end

/-- A renamed surface tree is a surface tree. -/
theorem surface_tree {nested : Bool} {t : Tree} (h : Surface nested t) (r : Renaming) :
  Surface nested (r.tree t)
  := by
  induction h generalizing r with
  | literal value =>
    rw [tree]
    exact .literal value
  | var x =>
    rw [tree]
    exact .var _
  | @operation op operands hcount _ ih =>
    rw [tree, trees_eq_map]
    apply Surface.operation
    · rw [List.length_map]
      exact hcount
    · intro t ht
      obtain ⟨u, hu, rfl⟩ := List.mem_map.mp ht
      exact ih u hu r
  | trivialConditional htrivial _ _ _ ihtest ihconseq ihalt =>
    rw [tree]
    refine .trivialConditional ?_ (ihtest r) (ihconseq r) (ihalt r)
    simpa only [isTrivial_tree] using htrivial
  | seriousConditional _ _ _ ihtest ihconseq ihalt =>
    rw [tree]
    exact .seriousConditional (ihtest r) (ihconseq r) (ihalt r)
  | abstraction params _ ih =>
    rw [tree]
    exact .abstraction params (ih _)
  | definition name params hnested _ ih =>
    rw [tree]
    exact .definition name params hnested (ih _)
  | application _ _ ihrator ihrands =>
    rw [tree, trees_eq_map]
    refine .application (ihrator r) ?_
    intro t ht
    obtain ⟨u, hu, rfl⟩ := List.mem_map.mp ht
    exact ihrands u hu r

end Renaming

end Springboard
