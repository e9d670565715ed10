import Springboard.Proofs.Walks

/-!
# Trees without continuations

Continuations are made functions throughout a tree of nodes, of whatever kinds these are. Main
statement: this succeeds just when the tree consists of nodes, no continuation and nothing handed to
one is left, a tree without them stays as it is, so that doing it again changes nothing, and the
free variables are the same up to the helper that hands values on.
-/

namespace Springboard.Tree

/-- Whether a node is a continuation, or a value that is handed to one. -/
def isContinuing : Tree → Bool
  | continuation _ _ | resumption _ _ => true
  | _ => false

/-- A node belongs to one of the two kinds just when it is a continuation or handed to one. -/
theorem isContinuing_eq_false_iff {t : Tree} :
  t.isContinuing = false ↔ t.kind? ≠ some .continuation ∧ t.kind? ≠ some .resumption
  := by
  cases t <;> simp [isContinuing, kind?]

/-! ### One node -/

/-- The node that a node becomes once the continuations in its children have been made functions.
Only continuations and what is handed to them change their kinds. -/
def abstracted (ak : String) : Tree → List Tree → Tree
  | continuation arg _, [body] => abstraction [arg] body
  | resumption _ _, [k, arg] => application (var ak) [k, arg]
  | t, cs => t.withChildren cs

/-- A node of another kind stays as it is, but for its children. -/
theorem abstracted_of_not_isContinuing {t : Tree} (h : t.isContinuing = false) (ak : String)
    (cs : List Tree) :
  t.abstracted ak cs = t.withChildren cs
  := by
  cases t with
  | continuation arg body | resumption k arg => contradiction
  | _ => rfl

/-- What holds of a node whose continuations were made functions. -/
structure Abstracted (ak : String) (t : Tree) (cs : List Tree) (u : Tree) : Prop where
  /-- Besides the children there can be the helper that hands values on. -/
  children : u.children = cs ∨ u.children = var ak :: cs
  binders : u.binders = t.binders
  var : ∀ x, u = var x → t = var x
  node : t.isNode → u.isNode
  kind : u.isContinuing = false

/-- Making a function of a node binds and keeps the same. -/
theorem abstracted_spec (ak : String) {t : Tree} {cs : List Tree}
    (h : cs.length = t.children.length) :
  Abstracted ak t cs (t.abstracted ak cs)
  := by
  by_cases hkind : t.isContinuing = false
  · have hrebuilt := rebuilt_withChildren h
    rw [abstracted_of_not_isContinuing hkind]
    refine ⟨.inl hrebuilt.children, hrebuilt.binders, fun x => eq_var_of_withChildren h, ?_, ?_⟩
    · intro hnode
      rwa [isNode, hrebuilt.kind]
    · rwa [isContinuing_eq_false_iff, hrebuilt.kind, ← isContinuing_eq_false_iff]
  · cases t with
    | continuation arg body =>
      obtain ⟨a, rfl⟩ := List.length_eq_one_iff.mp h
      exact ⟨.inl rfl, rfl, fun x hx => by contradiction, fun _ => rfl, rfl⟩
    | resumption k arg =>
      obtain ⟨a, b, rfl⟩ := List.length_eq_two.mp h
      exact ⟨.inr rfl, rfl, fun x hx => by contradiction, fun _ => rfl, rfl⟩
    | _ => exact absurd rfl hkind

/-- Continuations are made functions item by item. -/
theorem abstractAll_eq_mapM (ak : String) (ts : List Tree) :
  abstractAll ak ts = ts.mapM (abstractK ak)
  := by
  induction ts with
  | nil => rfl
  | cons t ts ih =>
    rw [abstractAll, ih, List.mapM_cons]
    rfl

/-- A stray value has no continuations to be made functions. -/
theorem abstractK_of_not_isNode {t : Tree} (h : t.isNode = false) (ak : String) :
  abstractK ak t = .error (.malformed (.noRule .abstraction) none t)
  := by
  cases t with
  | nothing | number n | text s | list items | tuple items => rfl
  | _ => contradiction

/-- The continuations of a node are made functions in its children first. -/
theorem abstractK_eq_walk {t : Tree} (hnode : t.isNode) (ak : String) :
  abstractK ak t = (do let cs ← t.children.mapM (abstractK ak); .ok (t.abstracted ak cs))
  := by
  cases t with
  | operation op items | program items helpers =>
    rw [abstractK, abstractAll_eq_mapM]
    rfl
  | application rator rands =>
    rw [abstractK, abstractAll_eq_mapM, children, List.mapM_cons]
    simp only [bind_assoc, pure_bind]
    rfl
  | blank | literal value | var x =>
    rw [abstractK]
    rfl
  | nothing | number n | text s | list items | tuple items => contradiction
  | _ =>
    rw [abstractK, children]
    simp only [List.mapM_cons, List.mapM_nil, bind_assoc, pure_bind]
    rfl

/-- Where continuations are made functions in a tree, it is a node, and they are in its children. -/
theorem of_abstractK {ak : String} {t t' : Tree} (h : abstractK ak t = .ok t') :
  t.isNode ∧ ∃ cs, t.children.mapM (abstractK ak) = .ok cs ∧ t' = t.abstracted ak cs
    ∧ Abstracted ak t cs t'
  := by
  cases hnode : t.isNode with
  | false =>
    rw [abstractK_of_not_isNode hnode] at h
    contradiction
  | true =>
    rw [abstractK_eq_walk hnode, Except.bind_eq_ok] at h
    obtain ⟨cs, hcs, h⟩ := h
    cases h
    exact ⟨rfl, cs, hcs, rfl, abstracted_spec ak (mapM_eq_ok.mp hcs).length_eq.symm⟩

/-! ### Whole trees -/

/-- Continuations are made functions in a tree of nodes, and a stray value is complained about. -/
theorem abstractK_outcome (ak : String) (t : Tree) :
  (∃ t', abstractK ak t = .ok t' ∧ ∀ u, t.Contains u → u.isNode)
    ∨ ∃ u, t.Contains u ∧ u.isNode = false
      ∧ abstractK ak t = .error (.malformed (.noRule .abstraction) none u)
  := by
  induction t using child_induction with
  | h t ih =>
    cases hnode : t.isNode with
    | false => exact .inr ⟨t, .refl, hnode, abstractK_of_not_isNode hnode ak⟩
    | true =>
      rw [abstractK_eq_walk hnode]
      cases hcs : t.children.mapM (abstractK ak) with
      | ok cs =>
        refine .inl ⟨_, rfl, ?_⟩
        intro u hu
        obtain rfl | ⟨c, hc, hu⟩ := contains_iff.mp hu
        · exact hnode
        · obtain ⟨c', -, hnodes⟩ | ⟨v, -, -, herror⟩ := ih c hc
          · exact hnodes u hu
          · obtain ⟨c', -, hc'⟩ := exists_of_mem_right (mapM_eq_ok.mp hcs).flip hc
            rw [herror] at hc'
            contradiction
      | error e =>
        obtain ⟨i, c, hi, he, -⟩ := exists_of_mapM_eq_error hcs
        have hc := List.mem_of_getElem? hi
        obtain ⟨c', hc', -⟩ | ⟨u, hu, hstray, herror⟩ := ih c hc
        · rw [he] at hc'
          contradiction
        · rw [he] at herror
          cases herror
          exact .inr ⟨u, contains_of_child hc hu, hstray, rfl⟩

/-- No continuation is left, and nothing that is handed to one. -/
theorem isContinuing_of_abstractK {ak : String} {t t' : Tree} (h : abstractK ak t = .ok t')
    {u : Tree} (hu : t'.Contains u) :
  u.isNode ∧ u.isContinuing = false
  := by
  induction t using child_induction generalizing t' with
  | h t ih =>
    obtain ⟨hnode, cs, hcs, -, hspec⟩ := of_abstractK h
    obtain rfl | ⟨c', hc', hu⟩ := contains_iff.mp hu
    · exact ⟨hspec.node hnode, hspec.kind⟩
    · have hc' : c' = var ak ∨ c' ∈ cs := by
        obtain h | h := hspec.children
        · exact .inr (h ▸ hc')
        · exact List.mem_cons.mp (h ▸ hc')
      obtain rfl | hc' := hc'
      · obtain rfl | ⟨c, hc, -⟩ := contains_iff.mp hu
        · exact ⟨rfl, rfl⟩
        · contradiction
      · obtain ⟨c, hc, hcc'⟩ := exists_of_mem_right (mapM_eq_ok.mp hcs) hc'
        exact ih c hc hcc' hu

/-- A tree of nodes without continuations stays as it is. -/
theorem abstractK_of_not_isContinuing (ak : String) {t : Tree}
    (h : ∀ u, t.Contains u → u.isNode ∧ u.isContinuing = false) :
  abstractK ak t = .ok t
  := by
  induction t using child_induction with
  | h t ih =>
    have hchildren : t.children.mapM (abstractK ak) = .ok t.children := by
      rw [mapM_eq_ok, List.forall₂_same]
      intro c hc
      apply ih c hc
      intro u hu
      exact h u (contains_of_child hc hu)
    have ⟨hnode, hkind⟩ := h t .refl
    rw [abstractK_eq_walk hnode, hchildren]
    exact congrArg Except.ok
      ((abstracted_of_not_isContinuing hkind ak t.children).trans (withChildren_children t))

/-- The free variables stay the same, but for the helper. -/
theorem free_of_abstractK {ak : String} {t t' : Tree} (h : abstractK ak t = .ok t') {x : String}
    (hx : x ≠ ak) :
  t'.Free x ↔ t.Free x
  := by
  induction t using child_induction generalizing t' with
  | h t ih =>
    obtain ⟨-, cs, hcs, -, hspec⟩ := of_abstractK h
    by_cases hvar : ∃ y, t = var y
    · obtain ⟨y, rfl⟩ := hvar
      cases h
      rfl
    · rw [not_exists] at hvar
      have hvar' : ∀ y, t' ≠ var y := fun y hy => hvar y (hspec.var y hy)
      have hcs' : (∃ c ∈ t'.children, c.Free x) ↔ ∃ c ∈ cs, c.Free x := by
        obtain hchildren | hchildren := hspec.children
        · rw [hchildren]
        · rw [hchildren, List.exists_mem_cons_iff, free_var, or_iff_right hx]
      rw [free_iff hvar, free_iff hvar', hspec.binders, hcs']
      apply and_congr_right
      intro _
      constructor
      · rintro ⟨c', hc', hfree⟩
        obtain ⟨c, hc, hcc'⟩ := exists_of_mem_right (mapM_eq_ok.mp hcs) hc'
        exact ⟨c, hc, (ih c hc hcc').mp hfree⟩
      · rintro ⟨c, hc, hfree⟩
        obtain ⟨c', hc', hcc'⟩ := exists_of_mem_right (mapM_eq_ok.mp hcs).flip hc
        exact ⟨c', hc', (ih c hc hcc').mpr hfree⟩

/-- **Making continuations functions is total, complete and idempotent.** For every tree and every
name of the helper: if there is a stray value in the tree, then one is complained about. Otherwise
there is a result. It consists of nodes, of which none is a continuation or handed to one; so it stays
as it is when continuations are made functions once more, with whatever helper. A tree without
continuations is its own result. The free variables are those of the tree, but for the helper. -/
theorem abstractK_removes_continuations (ak : String) (t : Tree) :
  ((∃ u, t.Contains u ∧ u.isNode = false) →
      ∃ u, t.Contains u ∧ u.isNode = false
        ∧ abstractK ak t = .error (.malformed (.noRule .abstraction) none u))
    ∧ ((∀ u, t.Contains u → u.isNode) →
      ∃ t', abstractK ak t = .ok t'
        ∧ (∀ u, t'.Contains u →
          u.isNode ∧ u.kind? ≠ some .continuation ∧ u.kind? ≠ some .resumption)
        ∧ (∀ ak', abstractK ak' t' = .ok t')
        ∧ ((∀ u, t.Contains u → u.kind? ≠ some .continuation ∧ u.kind? ≠ some .resumption) →
          t' = t)
        ∧ ∀ x, x ≠ ak → (t'.Free x ↔ t.Free x))
  := by
  simp only [← isContinuing_eq_false_iff]
  obtain ⟨t', ht', hnodes⟩ | ⟨u, hu, hstray, herror⟩ := abstractK_outcome ak t
  · constructor
    · rintro ⟨u, hu, hstray⟩
      have hnode := hnodes u hu
      rw [hstray] at hnode
      contradiction
    · intro _
      have hnormal : ∀ u, t'.Contains u → u.isNode ∧ u.isContinuing = false :=
        fun u => isContinuing_of_abstractK ht'
      refine ⟨t', ht', hnormal, fun ak' => abstractK_of_not_isContinuing ak' hnormal, ?_,
        fun x => free_of_abstractK ht'⟩
      intro hkinds
      have hsame := abstractK_of_not_isContinuing ak fun u hu => ⟨hnodes u hu, hkinds u hu⟩
      rw [ht'] at hsame
      cases hsame
      rfl
  · refine ⟨fun _ => ⟨u, hu, hstray, herror⟩, ?_⟩
    intro hnodes
    have hnode := hnodes u hu
    rw [hstray] at hnode
    contradiction

/-- A program in which a continuation that another one waits within is handed a value. -/
def relaying : Tree :=
  program
    [entry "main" ["x"] "k" "flag"
      (definition "main" ["k", "x"]
        (resumption (continuation "s" (resumption (var "k") (operation .plus [var "s", var "x"])))
          (var "x")) none)]
    []

/-- In the program both continuations become functions. Where a stray value stands in the place of the
program's entry, it is complained about. -/
theorem abstractK_removes_continuations_relaying :
  (∃ t', abstractK "apply" relaying = .ok t' ∧ (∀ ak, abstractK ak t' = .ok t')
      ∧ ∀ u, t'.Contains u → u.isNode ∧ u.kind? ≠ some .continuation ∧ u.kind? ≠ some .resumption)
    ∧ ∃ u, (program [nothing] []).Contains u ∧ u.isNode = false
      ∧ abstractK "apply" (program [nothing] []) = .error (.malformed (.noRule .abstraction) none u)
  := by
  constructor
  · have hnodes : relaying.passes isNode 9 := by decide
    obtain ⟨t', ht', hkinds, hagain, -⟩ :=
      (abstractK_removes_continuations "apply" relaying).2 fun u => of_passes hnodes
    exact ⟨t', ht', hagain, hkinds⟩
  · exact (abstractK_removes_continuations "apply" (program [nothing] [])).1
      ⟨nothing, contains_of_child List.mem_cons_self .refl, rfl⟩

end Springboard.Tree
