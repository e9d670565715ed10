import Springboard.Proofs.Walks

/-!
# Free occurrences and renaming

A node of a tree is found by the path of child numbers that leads to it, and the binders on the way
hide some names. Main statement: renaming replaces the free occurrences of a name and nothing else.
If the new name does not occur in the tree, the free variables change accordingly, and renaming back
gives the tree again; and of the stray values that are met on the way, the first is complained about.
-/

namespace Springboard.Tree

/-! ### Renaming as a walk -/

/-- A list is renamed item by item. -/
theorem renameAll_eq_mapM (old new : String) (ts : List Tree) :
  renameAll old new ts = ts.mapM (rename old new)
  := by
  induction ts with
  | nil => rfl
  | cons t ts ih =>
    rw [renameAll, ih, List.mapM_cons]
    rfl

/-- A stray value cannot be renamed within. -/
theorem rename_of_not_isNode {t : Tree} (h : t.isNode = false) (old new : String) :
  rename old new t = complain .cannotRename t
  := by
  cases t with
  | nothing | number n | text s | list items | tuple items => rfl
  | _ => contradiction

/-- Nothing is renamed under a binder of the old name. -/
theorem rename_of_mem_hides {t : Tree} {old : String} (h : old ∈ t.hides) (new : String) :
  rename old new t = .ok t
  := by
  cases t with
  | abstraction params body | definition name params body own =>
    rw [hides] at h
    rw [rename, if_pos (List.contains_iff_mem.mpr h)]
  | continuation arg body =>
    rw [rename, if_pos (beq_iff_eq.mpr (List.mem_singleton.mp h).symm)]
  | _ => contradiction

/-- Where the old name is not hidden, a node is renamed by renaming its children. -/
theorem rename_eq_walk {t : Tree} {old : String} (hnode : t.isNode) (hvar : ∀ x, t ≠ var x)
    (h : old ∉ t.hides) (new : String) :
  rename old new t = (do let cs ← t.children.mapM (rename old new); .ok (t.withChildren cs))
  := by
  cases t with
  | var x => exact absurd rfl (hvar x)
  | operation op items | program items helpers =>
    rw [rename, renameAll_eq_mapM]
    rfl
  | application rator rands =>
    rw [rename, renameAll_eq_mapM, children, List.mapM_cons]
    simp only [bind_assoc, pure_bind]
    rfl
  | abstraction params body | definition name params body own =>
    rw [hides] at h
    rw [rename, if_neg (fun hold => h (List.contains_iff_mem.mp hold)), children]
    simp only [List.mapM_cons, List.mapM_nil, bind_assoc, pure_bind]
    rfl
  | continuation arg body =>
    rw [hides, List.mem_singleton] at h
    rw [rename, if_neg (fun hold => h (beq_iff_eq.mp hold).symm), children]
    simp only [List.mapM_cons, List.mapM_nil, bind_assoc, pure_bind]
    rfl
  | blank | literal value =>
    rw [rename]
    rfl
  | nothing | number n | text s | list items | tuple items => contradiction
  | _ =>
    rw [rename, children]
    simp only [List.mapM_cons, List.mapM_nil, bind_assoc, pure_bind]
    rfl

/-- The ways in which a tree is renamed: a stray value is complained about, a variable is replaced or
kept, below a binder of the old name nothing changes, and otherwise the children are renamed. -/
theorem rename_cases (old new : String) (t : Tree) :
  (t.isNode = false ∧ rename old new t = complain .cannotRename t)
    ∨ (∃ x, t = var x ∧ rename old new t = .ok (var (if x = old then new else x)))
    ∨ (t.isNode ∧ old ∈ t.hides ∧ rename old new t = .ok t)
    ∨ (t.isNode ∧ (∀ x, t ≠ var x) ∧ old ∉ t.hides
      ∧ rename old new t = (do let cs ← t.children.mapM (rename old new); .ok (t.withChildren cs)))
  := by
  cases hnode : t.isNode with
  | false => exact .inl ⟨rfl, rename_of_not_isNode hnode old new⟩
  | true =>
    right
    by_cases hvar : ∃ x, t = var x
    · obtain ⟨x, rfl⟩ := hvar
      refine .inl ⟨x, rfl, ?_⟩
      rw [rename]
      simp only [beq_iff_eq]
    · right
      rw [not_exists] at hvar
      by_cases h : old ∈ t.hides
      · exact .inl ⟨rfl, h, rename_of_mem_hides h new⟩
      · exact .inr ⟨rfl, hvar, h, rename_eq_walk hnode hvar h new⟩

/-! ### Paths -/

/-- What a path of child numbers leads to, and the names that are hidden on the way. -/
def at? : Tree → List Nat → Option (List String × Tree)
  | t, [] => some ([], t)
  | t, i :: path => do
    let c ← t.children[i]?
    let (scope, u) ← c.at? path
    some (t.hides ++ scope, u)

/-- A path leads to a child first, and then on from there. -/
theorem at?_cons_eq_some {t u : Tree} {i : Nat} {path : List Nat} {scope : List String} :
  t.at? (i :: path) = some (scope, u)
    ↔ ∃ c rest, t.children[i]? = some c ∧ c.at? path = some (rest, u) ∧ scope = t.hides ++ rest
  := by
  simp only [at?, Option.bind_eq_bind, Option.bind_eq_some_iff, Option.some.injEq, Prod.mk.injEq,
    Prod.exists]
  constructor
  · rintro ⟨c, hc, rest, u', hu, hscope, rfl⟩
    exact ⟨c, rest, hc, hu, hscope.symm⟩
  · rintro ⟨c, rest, hc, hu, hscope⟩
    exact ⟨c, hc, rest, u, hu, hscope.symm, rfl⟩

/-- A path leads nowhere if there is no such child, or if it leads nowhere from there. -/
theorem at?_cons_eq_none {t : Tree} {i : Nat} {path : List Nat} :
  t.at? (i :: path) = none ↔ ∀ c, t.children[i]? = some c → c.at? path = none
  := by
  cases hc : t.children[i]? with
  | none => simp [at?, hc]
  | some c =>
    cases hpath : c.at? path with
    | none => simp [at?, hc, hpath]
    | some p => simp [at?, hc, hpath]

/-- What a path leads to stands in the tree, and so does a binder of each name that is hidden on the
way. -/
theorem contains_of_at? {t u : Tree} {path : List Nat} {scope : List String}
    (h : t.at? path = some (scope, u)) :
  t.Contains u ∧ ∀ x ∈ scope, ∃ b, t.Contains b ∧ x ∈ b.hides
  := by
  induction path generalizing t scope with
  | nil =>
    cases h
    refine ⟨.refl, ?_⟩
    intro x hx
    contradiction
  | cons i path ih =>
    obtain ⟨c, rest, hc, hrest, rfl⟩ := at?_cons_eq_some.mp h
    obtain ⟨hu, hscope⟩ := ih hrest
    have hmem := List.mem_of_getElem? hc
    refine ⟨contains_of_child hmem hu, ?_⟩
    intro x hx
    obtain hx | hx := List.mem_append.mp hx
    · exact ⟨t, .refl, hx⟩
    · obtain ⟨b, hb, hx⟩ := hscope x hx
      exact ⟨b, contains_of_child hmem hb, hx⟩

/-- A path leads to a tree, and no binder of the name is on the way. -/
def Uncovers (t : Tree) (x : String) (path : List Nat) (u : Tree) : Prop :=
  ∃ scope, t.at? path = some (scope, u) ∧ x ∉ scope

/-- The empty path leads to the tree itself. -/
theorem uncovers_nil {t u : Tree} {x : String} : t.Uncovers x [] u ↔ t = u := by
  constructor
  · rintro ⟨scope, h, -⟩
    cases h
    rfl
  · rintro rfl
    exact ⟨[], rfl, List.not_mem_nil⟩

/-- Other paths lead to a child first, if the node itself does not hide the name. -/
theorem uncovers_cons {t u : Tree} {x : String} {i : Nat} {path : List Nat} :
  t.Uncovers x (i :: path) u
    ↔ x ∉ t.hides ∧ ∃ c, t.children[i]? = some c ∧ c.Uncovers x path u
  := by
  constructor
  · rintro ⟨scope, h, hx⟩
    obtain ⟨c, rest, hc, hrest, rfl⟩ := at?_cons_eq_some.mp h
    rw [List.mem_append, not_or] at hx
    exact ⟨hx.1, c, hc, rest, hrest, hx.2⟩
  · rintro ⟨hx, c, hc, rest, hrest, hx'⟩
    refine ⟨t.hides ++ rest, at?_cons_eq_some.mpr ⟨c, rest, hc, hrest, rfl⟩, ?_⟩
    rw [List.mem_append, not_or]
    exact ⟨hx, hx'⟩

/-! ### What renaming meets -/

/-- The path leads to a stray value that no binder of the name hides, and no path before it does. -/
structure LeadsToFirstStray (t : Tree) (x : String) (path : List Nat) (u : Tree) : Prop where
  uncovered : t.Uncovers x path u
  stray : u.isNode = false
  first : ∀ path' u', t.Uncovers x path' u' → u'.isNode = false → ¬ List.Lex (· < ·) path' path

/-- Renaming succeeds if it meets only nodes, and otherwise complains about the first stray value that
it meets. -/
theorem rename_outcome (old new : String) (t : Tree) :
  (∃ t', rename old new t = .ok t' ∧ ∀ path u, t.Uncovers old path u → u.isNode)
    ∨ ∃ path u, t.LeadsToFirstStray old path u
      ∧ rename old new t = .error (.malformed .cannotRename none u)
  := by
  induction t using child_induction with
  | h t ih =>
    obtain ⟨hstray, heq⟩ | ⟨x, rfl, heq⟩ | ⟨hnode, hold, heq⟩ | ⟨hnode, -, hold, heq⟩ :=
      rename_cases old new t
    · refine .inr ⟨[], t, ⟨uncovers_nil.mpr rfl, hstray, ?_⟩, heq⟩
      intro path' u' _ _ hbefore
      cases hbefore
    · refine .inl ⟨_, heq, ?_⟩
      intro path u hu
      cases path with
      | nil =>
        cases uncovers_nil.mp hu
        rfl
      | cons i path =>
        obtain ⟨-, c, hc, -⟩ := uncovers_cons.mp hu
        contradiction
    · refine .inl ⟨t, heq, ?_⟩
      intro path u hu
      cases path with
      | nil =>
        cases uncovers_nil.mp hu
        exact hnode
      | cons i path => exact absurd hold (uncovers_cons.mp hu).1
    · -- a child is renamed just when no stray value is uncovered in it
      have hchild : ∀ c ∈ t.children, ∀ c' path u, rename old new c = .ok c' →
          c.Uncovers old path u → u.isNode := by
        intro c hc c' path u hc' hu
        obtain ⟨c'', -, hnodes⟩ | ⟨path', u', -, herror⟩ := ih c hc
        · exact hnodes path u hu
        · rw [hc'] at herror
          contradiction
      cases hcs : t.children.mapM (rename old new) with
      | ok cs =>
        rw [hcs] at heq
        refine .inl ⟨_, heq, ?_⟩
        intro path u hu
        cases path with
        | nil =>
          cases uncovers_nil.mp hu
          exact hnode
        | cons i path =>
          obtain ⟨-, c, hc, hu⟩ := uncovers_cons.mp hu
          obtain ⟨c', -, hc'⟩ := exists_getElem?_of_forall₂ (mapM_eq_ok.mp hcs) hc
          exact hchild c (List.mem_of_getElem? hc) c' path u hc' hu
      | error e =>
        rw [hcs] at heq
        obtain ⟨i, c, hc, he, hbefore⟩ := exists_of_mapM_eq_error hcs
        obtain ⟨c', hc', -⟩ | ⟨path, u, hfirst, herror⟩ := ih c (List.mem_of_getElem? hc)
        · rw [he] at hc'
          contradiction
        rw [he] at herror
        cases herror
        have huncovered := uncovers_cons.mpr ⟨hold, c, hc, hfirst.uncovered⟩
        refine .inr ⟨i :: path, u, ⟨huncovered, hfirst.stray, ?_⟩, heq⟩
        intro path' u' hu' hstray' hlex
        cases path' with
        | nil =>
          cases uncovers_nil.mp hu'
          rw [hnode] at hstray'
          contradiction
        | cons j path' =>
          obtain ⟨-, d, hd, hu'⟩ := uncovers_cons.mp hu'
          cases hlex with
          | rel hlt =>
            obtain ⟨d', hd'⟩ := hbefore j d hlt hd
            have hnode' := hchild d (List.mem_of_getElem? hd) d' path' u' hd' hu'
            rw [hstray'] at hnode'
            contradiction
          | cons hlex =>
            rw [hc] at hd
            cases hd
            exact hfirst.first path' u' hu' hstray' hlex

/-! ### What renaming changes -/

/-- The one tree is the other with the free occurrences of a name replaced, and nothing else. -/
structure RenamesFree (old new : String) (t t' : Tree) : Prop where
  /-- A free occurrence of the old name becomes one of the new name, below the same binders. -/
  free : ∀ path scope, t.at? path = some (scope, var old) → old ∉ scope →
    t'.at? path = some (scope, var new)
  /-- Whatever else a path leads to is the same node below the same binders, perhaps with other
  children. -/
  other : ∀ path scope u, t.at? path = some (scope, u) → (u = var old → old ∈ scope) →
    ∃ cs, cs.length = u.children.length ∧ t'.at? path = some (scope, u.withChildren cs)
  /-- There are no further nodes. -/
  absent : ∀ path, t.at? path = none → t'.at? path = none

/-- Without free occurrences nothing is replaced. -/
theorem RenamesFree.refl {old : String} {t : Tree} (h : ∀ path, ¬ t.Uncovers old path (var old))
    (new : String) :
  RenamesFree old new t t
  := by
  constructor
  · intro path scope hpath hold
    exact absurd ⟨scope, hpath, hold⟩ (h path)
  · intro path scope u hpath _
    refine ⟨u.children, rfl, ?_⟩
    rwa [withChildren_children]
  · intro path hpath
    exact hpath

/-- Free occurrences are replaced in a node by replacing them in its children. -/
theorem RenamesFree.walk {old new : String} {t : Tree} (hvar : ∀ x, t ≠ var x)
    (hold : old ∉ t.hides) {cs : List Tree}
    (h : List.Forall₂ (RenamesFree old new) t.children cs) :
  RenamesFree old new t (t.withChildren cs)
  := by
  have hrebuilt := rebuilt_withChildren h.length_eq.symm
  constructor
  · intro path scope hpath hscope
    cases path with
    | nil =>
      cases hpath
      exact absurd rfl (hvar old)
    | cons i path =>
      obtain ⟨c, rest, hc, hrest, rfl⟩ := at?_cons_eq_some.mp hpath
      rw [List.mem_append, not_or] at hscope
      obtain ⟨c', hc', hrenames⟩ := exists_getElem?_of_forall₂ h hc
      rw [at?_cons_eq_some, hrebuilt.children, hrebuilt.hides]
      exact ⟨c', rest, hc', hrenames.free path rest hrest hscope.2, rfl⟩
  · intro path scope u hpath hu
    cases path with
    | nil =>
      cases hpath
      exact ⟨cs, h.length_eq.symm, rfl⟩
    | cons i path =>
      obtain ⟨c, rest, hc, hrest, rfl⟩ := at?_cons_eq_some.mp hpath
      obtain ⟨c', hc', hrenames⟩ := exists_getElem?_of_forall₂ h hc
      have hu' : u = var old → old ∈ rest := fun heq =>
        (List.mem_append.mp (hu heq)).resolve_left hold
      obtain ⟨ds, hds, hpath'⟩ := hrenames.other path rest u hrest hu'
      refine ⟨ds, hds, ?_⟩
      rw [at?_cons_eq_some, hrebuilt.children, hrebuilt.hides]
      exact ⟨c', rest, hc', hpath', rfl⟩
  · intro path hpath
    cases path with
    | nil => contradiction
    | cons i path =>
      rw [at?_cons_eq_none, hrebuilt.children]
      intro c' hc'
      obtain ⟨c, hc, hrenames⟩ := exists_getElem?_of_forall₂ h.flip hc'
      exact hrenames.absent path (at?_cons_eq_none.mp hpath c hc)

/-- No path leads further than a variable. -/
theorem at?_var_cons (x : String) (i : Nat) (path : List Nat) : (var x).at? (i :: path) = none := by
  rw [at?_cons_eq_none]
  intro c hc
  contradiction

/-- A variable of the old name becomes one of the new name. -/
theorem RenamesFree.var (old new : String) : RenamesFree old new (var old) (var new) := by
  constructor
  · intro path scope hpath _
    cases path with
    | nil =>
      cases hpath
      rfl
    | cons i path =>
      rw [at?_var_cons] at hpath
      contradiction
  · intro path scope u hpath hu
    cases path with
    | nil =>
      cases hpath
      exact absurd (hu rfl) List.not_mem_nil
    | cons i path =>
      rw [at?_var_cons] at hpath
      contradiction
  · intro path hpath
    cases path with
    | nil => contradiction
    | cons i path => exact at?_var_cons new i path

/-- Renaming replaces the free occurrences of the old name, and nothing else. -/
theorem renamesFree_of_rename {old new : String} {t t' : Tree} (h : rename old new t = .ok t') :
  RenamesFree old new t t'
  := by
  induction t using child_induction generalizing t' with
  | h t ih =>
    obtain ⟨-, heq⟩ | ⟨x, rfl, heq⟩ | ⟨-, hold, heq⟩ | ⟨-, hvar, hold, heq⟩ := rename_cases old new t
    · rw [heq] at h
      contradiction
    · rw [heq] at h
      cases h
      by_cases hx : x = old
      · rw [if_pos hx, hx]
        apply RenamesFree.var
      · rw [if_neg hx]
        apply RenamesFree.refl
        rintro path ⟨scope, hpath, -⟩
        cases path with
        | nil =>
          cases hpath
          contradiction
        | cons i path =>
          rw [at?_var_cons] at hpath
          contradiction
    · rw [heq] at h
      cases h
      apply RenamesFree.refl
      intro path hpath
      cases path with
      | nil =>
        cases uncovers_nil.mp hpath
        contradiction
      | cons i path => exact absurd hold (uncovers_cons.mp hpath).1
    · rw [heq, Except.bind_eq_ok] at h
      obtain ⟨cs, hcs, h⟩ := h
      cases h
      apply RenamesFree.walk hvar hold
      exact forall₂_of_mapM hcs fun c hc c' hc' => ih c hc hc'

/-! ### Free variables -/

/-- The names that a node itself holds: a variable holds its own, and a binder those that it hides. -/
def holds : Tree → List String
  | var x => [x]
  | t => t.hides

/-- What a node hides it holds. -/
theorem mem_holds_of_mem_hides {t : Tree} {x : String} (h : x ∈ t.hides) : x ∈ t.holds := by
  cases t with
  | var y => contradiction
  | _ => exact h

/-- The name occurs as a variable where no binder hides it. -/
def OccursFree (t : Tree) (x : String) : Prop :=
  ∃ path, t.Uncovers x path (var x)

section FreeVariables

variable {old new : String} {t t' : Tree} (hnew : ∀ u, t.Contains u → new ∉ u.holds)
  (h : RenamesFree old new t t')

include hnew h

/-- If the new name does not occur, the free variables of the result are those of the tree, with the
old name replaced. -/
theorem occursFree_iff (x : String) :
  t'.OccursFree x ↔ ∃ y, t.OccursFree y ∧ x = if y = old then new else y
  := by
  constructor
  · rintro ⟨path, scope, hpath, hx⟩
    cases hat : t.at? path with
    | none =>
      rw [h.absent path hat] at hpath
      contradiction
    | some p =>
      obtain ⟨scope', u⟩ := p
      by_cases hfree : u = var old ∧ old ∉ scope'
      · obtain ⟨rfl, hold⟩ := hfree
        have hpath' := h.free path scope' hat hold
        rw [hpath] at hpath'
        cases hpath'
        exact ⟨old, ⟨path, scope, hat, hold⟩, (if_pos rfl).symm⟩
      · have hbound : u = var old → old ∈ scope' := fun heq =>
          by_contra fun hold => hfree ⟨heq, hold⟩
        obtain ⟨cs, hcs, hpath'⟩ := h.other path scope' u hat hbound
        rw [hpath, Option.some.injEq, Prod.mk.injEq] at hpath'
        obtain ⟨rfl, heq⟩ := hpath'
        have hu := eq_var_of_withChildren hcs heq.symm
        refine ⟨x, ⟨path, scope, hu ▸ hat, hx⟩, ?_⟩
        rw [if_neg]
        rintro rfl
        exact hx (hbound hu)
  · rintro ⟨y, ⟨path, scope, hpath, hy⟩, rfl⟩
    split
    · rename_i heq
      subst heq
      refine ⟨path, scope, h.free path scope hpath hy, ?_⟩
      intro hmem
      obtain ⟨b, hb, hhides⟩ := (contains_of_at? hpath).2 new hmem
      exact hnew b hb (mem_holds_of_mem_hides hhides)
    · rename_i hne
      obtain ⟨cs, hcs, hpath'⟩ := h.other path scope (.var y) hpath fun heq => by
        cases heq
        contradiction
      exact ⟨path, scope, hpath', hy⟩

/-- If the new name does not occur, the old name is not free in the result. -/
theorem not_occursFree : ¬ t'.OccursFree old := by
  intro hfree
  obtain ⟨y, ⟨path, scope, hpath, -⟩, heq⟩ := (occursFree_iff hnew h old).mp hfree
  split at heq
  · rename_i hy
    -- the old name is the new one, so it does not occur
    apply hnew _ (contains_of_at? hpath).1
    rw [hy, heq]
    exact List.mem_cons_self
  · rename_i hy
    exact hy heq.symm

end FreeVariables

/-! ### Renaming back -/

/-- Nothing is renamed in a tree of nodes in which the old name does not occur. -/
theorem rename_of_absent {x : String} (y : String) {t : Tree}
    (hnodes : ∀ u, t.Contains u → u.isNode) (hx : ∀ u, t.Contains u → x ∉ u.holds) :
  rename x y t = .ok t
  := by
  induction t using child_induction with
  | h t ih =>
    obtain ⟨hstray, -⟩ | ⟨z, rfl, heq⟩ | ⟨-, -, heq⟩ | ⟨-, -, -, heq⟩ := rename_cases x y t
    · have hnode := hnodes t .refl
      rw [hstray] at hnode
      contradiction
    · have hne : z ≠ x := by
        rintro rfl
        exact hx _ .refl List.mem_cons_self
      rw [heq, if_neg hne]
    · exact heq
    · have hchildren : t.children.mapM (rename x y) = .ok t.children := by
        rw [mapM_eq_ok, List.forall₂_same]
        intro c hc
        apply ih c hc
        · intro u hu
          exact hnodes u (contains_of_child hc hu)
        · intro u hu
          exact hx u (contains_of_child hc hu)
      rw [heq, hchildren]
      exact congrArg Except.ok (withChildren_children t)

/-- If the new name does not occur in a tree of nodes, renaming back gives the tree. -/
theorem rename_back {old new : String} {t t' : Tree} (hnodes : ∀ u, t.Contains u → u.isNode)
    (hnew : ∀ u, t.Contains u → new ∉ u.holds) (h : rename old new t = .ok t') :
  rename new old t' = .ok t
  := by
  induction t using child_induction generalizing t' with
  | h t ih =>
    obtain ⟨-, heq⟩ | ⟨x, rfl, heq⟩ | ⟨-, -, heq⟩ | ⟨hnode, hvar, -, heq⟩ := rename_cases old new t
    · rw [heq] at h
      contradiction
    · have hne : x ≠ new := by
        rintro rfl
        exact hnew _ .refl List.mem_cons_self
      rw [heq] at h
      cases h
      rw [rename]
      by_cases hx : x = old
      · rw [if_pos hx, if_pos (beq_iff_eq.mpr rfl), hx]
      · rw [if_neg hx, if_neg (fun heq => hne (beq_iff_eq.mp heq))]
    · rw [heq] at h
      cases h
      exact rename_of_absent old hnodes hnew
    · rw [heq, Except.bind_eq_ok] at h
      obtain ⟨cs, hcs, h⟩ := h
      cases h
      have hlength := (mapM_eq_ok.mp hcs).length_eq.symm
      have hrebuilt := rebuilt_withChildren hlength
      have hchildren : cs.mapM (rename new old) = .ok t.children := by
        rw [mapM_eq_ok]
        apply List.Forall₂.flip
        apply forall₂_of_mapM hcs
        intro c hc c' hc'
        apply ih c hc _ _ hc'
        · intro u hu
          exact hnodes u (contains_of_child hc hu)
        · intro u hu
          exact hnew u (contains_of_child hc hu)
      rw [rename_eq_walk, hrebuilt.children, hchildren]
      · exact congrArg Except.ok hrebuilt.undo
      · rwa [isNode, hrebuilt.kind]
      · intro x hx
        exact hvar x (eq_var_of_withChildren hlength hx)
      · rw [hrebuilt.hides]
        intro hmem
        exact hnew t .refl (mem_holds_of_mem_hides hmem)

/-- **Renaming replaces the free occurrences of a name, and can be undone.** Let the new name occur
nowhere in a tree: not as a variable, not as a parameter and not as what a continuation waits for. If
renaming meets only nodes, where it does not go below binders of the old name, then it succeeds; at
each place the result has the same node below the same binders, but for the free occurrences of the
old name, where it has the new name; so its free variables are those of the tree with the old name
replaced, and the old name is not among them; and if the tree consists of nodes throughout, renaming
back gives the tree. Otherwise the first stray value that renaming meets is complained about. -/
theorem rename_replaces_free (t : Tree) (old new : String)
    (hnew : ∀ u, t.Contains u → new ∉ u.holds) :
  ((∀ path u, t.Uncovers old path u → u.isNode) →
      ∃ t', rename old new t = .ok t' ∧ RenamesFree old new t t'
        ∧ (∀ x, t'.OccursFree x ↔ ∃ y, t.OccursFree y ∧ x = if y = old then new else y)
        ∧ ¬ t'.OccursFree old
        ∧ ((∀ u, t.Contains u → u.isNode) → rename new old t' = .ok t))
    ∧ ((¬ ∀ path u, t.Uncovers old path u → u.isNode) →
      ∃ path u, t.LeadsToFirstStray old path u
        ∧ rename old new t = .error (.malformed .cannotRename none u))
  := by
  obtain ⟨t', ht', hnodes⟩ | ⟨path, u, hfirst, herror⟩ := rename_outcome old new t
  · have hrenames := renamesFree_of_rename ht'
    refine ⟨fun _ => ?_, fun hstray => absurd hnodes hstray⟩
    refine ⟨t', ht', hrenames, occursFree_iff hnew hrenames, not_occursFree hnew hrenames, ?_⟩
    intro hall
    exact rename_back hall hnew ht'
  · refine ⟨fun hnodes => ?_, fun _ => ⟨path, u, hfirst, herror⟩⟩
    have hnode := hnodes path u hfirst.uncovered
    rw [hfirst.stray] at hnode
    contradiction

/-- A definition in which a name occurs free twice, and is bound by a function and by a
continuation. -/
def shadowing : Tree :=
  definition "f" ["x"]
    (application (var "g")
      [abstraction ["g"] (application (var "g") [var "x"]),
        continuation "g" (resumption (var "g") (var "x")),
        continuation "s" (resumption (var "g") (var "s"))])
    (some "f__1")

/-- A call with two stray values, of which a function hides the first. -/
def straying : Tree :=
  application (abstraction ["g"] nothing) [resumption (var "g") (text "x")]

/-- The free occurrences of a name are replaced at both places, the bound ones stay, and renaming back
gives the definition again. A stray value that a binder hides is passed over. -/
theorem rename_replaces_free_shadowing :
  (∃ t', rename "g" "h" shadowing = .ok t' ∧ t'.at? [0, 0] = some (["x"], var "h")
      ∧ t'.at? [0, 3, 0, 0] = some (["x", "s"], var "h") ∧ ¬ t'.OccursFree "g"
      ∧ rename "h" "g" t' = .ok shadowing)
    ∧ ∃ path u, straying.LeadsToFirstStray "g" path u
      ∧ rename "g" "h" straying = .error (.malformed .cannotRename none u)
  := by
  have hnew : ∀ t : Tree, t.passes (fun u => !u.holds.contains "h") 9 → ∀ u, t.Contains u →
      "h" ∉ u.holds := by
    intro t ht u hu hmem
    have hpass := of_passes ht hu
    rw [List.contains_iff_mem.mpr hmem] at hpass
    contradiction
  have hnodes : ∀ u, shadowing.Contains u → u.isNode := by
    have hpasses : shadowing.passes isNode 9 := by decide
    exact fun u => of_passes hpasses
  constructor
  · obtain ⟨t', ht', hrenames, -, hfree, hback⟩ :=
      (rename_replaces_free shadowing "g" "h" (hnew _ (by decide))).1 fun path u ⟨_, hu, _⟩ =>
        hnodes u (contains_of_at? hu).1
    exact ⟨t', ht', hrenames.free _ _ rfl (by decide), hrenames.free _ _ rfl (by decide), hfree,
      hback hnodes⟩
  · apply (rename_replaces_free straying "g" "h" (hnew _ (by decide))).2
    intro h
    have hnode := h [1, 1] (text "x") ⟨[], rfl, List.not_mem_nil⟩
    contradiction

end Springboard.Tree
