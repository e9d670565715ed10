import Springboard.Proofs.Shape

/-!
# Free variables

The free variables of a tree are those that no binder on the way to them binds. Renaming replaces
one of them, suspension keeps them, and threading a continuation through a tree joins those of both,
as long as none of them looks like a name that is yet to be drawn.
-/

namespace Springboard

open NameSource

namespace Tree

/-! ### Free variables and binders -/

/-- The names that a node binds in its children. A definition binds its parameters and, after
conversion, its own fresh name. -/
def binders : Tree → List String
  | abstraction params _ => params
  | definition _ params _ own => params ++ own.toList
  | continuation arg _ => [arg]
  | _ => []

/-- The variable occurs in the tree where no binder above it binds it. -/
inductive Free (x : String) : Tree → Prop
  | var : Free x (var x)
  | child {t c : Tree} (hc : c ∈ t.children) (hx : x ∉ t.binders) (h : Free x c) : Free x t

/-- A variable is free in a variable if it is the same. -/
theorem free_var {x y : String} : (var y).Free x ↔ x = y := by
  constructor
  · intro h
    cases h with
    | var => rfl
    | child hc => contradiction
  · rintro rfl
    exact .var

/-- A variable is free in a node that is no variable if it is free in a child and not bound by the
node. -/
theorem free_iff {x : String} {t : Tree} (ht : ∀ y, t ≠ Tree.var y) :
  t.Free x ↔ x ∉ t.binders ∧ ∃ c ∈ t.children, c.Free x
  := by
  constructor
  · intro h
    cases h with
    | var => exact absurd rfl (ht x)
    | child hc hx h => exact ⟨hx, _, hc, h⟩
  · rintro ⟨hx, c, hc, h⟩
    exact .child hc hx h

/-- The free variables of an operation are those of its operands. -/
theorem free_operation {x : String} {op : Operator} {operands : List Tree} :
  (operation op operands).Free x ↔ ∃ t ∈ operands, t.Free x
  := by
  rw [free_iff (fun y h => by contradiction)]
  exact and_iff_right List.not_mem_nil

/-- The free variables of a conditional are those of its parts. -/
theorem free_conditional {x : String} {sort : Conditional} {test conseq alt : Tree} :
  (conditional sort test conseq alt).Free x ↔ test.Free x ∨ conseq.Free x ∨ alt.Free x
  := by
  rw [free_iff (fun y h => by contradiction)]
  simp [binders, children]

/-- The free variables of a function are those of its body that are not parameters. -/
theorem free_abstraction {x : String} {params : List String} {body : Tree} :
  (abstraction params body).Free x ↔ x ∉ params ∧ body.Free x
  := by
  rw [free_iff (fun y h => by contradiction)]
  simp [binders, children]

/-- The free variables of a definition are those of its body that it does not bind. -/
theorem free_definition {x name : String} {params : List String} {body : Tree} {own : Option String} :
  (definition name params body own).Free x ↔ x ∉ params ++ own.toList ∧ body.Free x
  := by
  rw [free_iff (fun y h => by contradiction)]
  simp [binders, children]

/-- The free variables of a call are those of its parts. -/
theorem free_application {x : String} {rator : Tree} {rands : List Tree} :
  (application rator rands).Free x ↔ ∃ t ∈ rator :: rands, t.Free x
  := by
  rw [free_iff (fun y h => by contradiction)]
  exact and_iff_right List.not_mem_nil

/-- No variable is free in a literal. -/
theorem not_free_literal {x : String} {value : Number} : ¬ (literal value).Free x := by
  rw [free_iff (fun y h => by contradiction)]
  simp [children]

/-- The free variables of a surface tree are among its names. -/
theorem mem_names_of_free {nested : Bool} {t : Tree} (h : Surface nested t) {x : String}
    (hx : t.Free x) :
  x ∈ t.names
  := by
  induction h with
  | literal value => exact absurd hx not_free_literal
  | var y => exact List.mem_singleton.mpr (free_var.mp hx)
  | operation _ _ ih =>
    obtain ⟨t, ht, hx⟩ := free_operation.mp hx
    exact mem_namesAll.mpr ⟨t, ht, ih t ht hx⟩
  | trivialConditional _ _ _ _ ihtest ihconseq ihalt
  | seriousConditional _ _ _ ihtest ihconseq ihalt =>
    rw [names, List.mem_append, List.mem_append, or_assoc]
    exact (free_conditional.mp hx).imp ihtest (Or.imp ihconseq ihalt)
  | abstraction params _ ih => exact List.mem_append_right _ (ih (free_abstraction.mp hx).2)
  | definition name params _ _ ih => exact List.mem_append_right _ (ih (free_definition.mp hx).2)
  | application _ _ ihrator ihrands =>
    obtain ⟨t, ht, hfree⟩ := free_application.mp hx
    rw [names, List.mem_append]
    obtain rfl | ht := List.mem_cons.mp ht
    · exact .inl (ihrator hfree)
    · exact .inr (mem_namesAll.mpr ⟨t, ht, ihrands t ht hfree⟩)

/-! ### Renaming -/

/-- Below a binder that does not bind the new name, a variable that is not bound there has the same
new name as above it. -/
theorem exists_name_under {r : Renaming} {params : List String}
    (hr : ∀ old new, r = some (old, new) → new ∉ params) (P : String → Prop) (x : String) :
  (x ∉ params ∧ ∃ y, P y ∧ x = (r.under params).name y)
    ↔ ∃ y, (y ∉ params ∧ P y) ∧ x = r.name y
  := by
  have hunder : ∀ y ∉ params, (r.under params).name y = r.name y ∧ r.name y ∉ params := by
    intro y hy
    obtain ⟨new, rfl, hname⟩ | hname := Renaming.name_cases r y
    · rw [Renaming.under_of_notMem (by simpa using hy), hname]
      exact ⟨rfl, hr y new rfl⟩
    · refine ⟨?_, by rwa [hname]⟩
      obtain ⟨new, hr', -⟩ | hname' := Renaming.name_cases (r.under params) y
      · rw [hr', (Option.filter_eq_some_iff.mp hr').1]
      · rw [hname, hname']
  constructor
  · rintro ⟨hx, y, hy, hxy⟩
    have hparams : y ∉ params := by
      intro hmem
      obtain ⟨new, hr', -⟩ | hname := Renaming.name_cases (r.under params) y
      · have hfilter := (Option.filter_eq_some_iff.mp hr').2
        simp [hmem] at hfilter
      · rw [hxy, hname] at hx
        exact hx hmem
    exact ⟨y, ⟨hparams, hy⟩, hxy.trans (hunder y hparams).1⟩
  · rintro ⟨y, ⟨hparams, hy⟩, rfl⟩
    exact ⟨(hunder y hparams).2, y, hy, (hunder y hparams).1.symm⟩

/-- The free variables of renamed trees are the new names of their free variables, if that holds for
each of them. -/
theorem exists_free_trees {r : Renaming} {ts : List Tree} {x : String}
    (h : ∀ t ∈ ts, (r.tree t).Free x ↔ ∃ y, t.Free y ∧ x = r.name y) :
  (∃ t ∈ ts.map r.tree, t.Free x) ↔ ∃ y, (∃ t ∈ ts, t.Free y) ∧ x = r.name y
  := by
  constructor
  · rintro ⟨u, hu, hx⟩
    obtain ⟨t, ht, rfl⟩ := List.mem_map.mp hu
    obtain ⟨y, hy, hxy⟩ := (h t ht).mp hx
    exact ⟨y, ⟨t, ht, hy⟩, hxy⟩
  · rintro ⟨y, ⟨t, ht, hy⟩, hxy⟩
    exact ⟨_, List.mem_map_of_mem ht, (h t ht).mpr ⟨y, hy, hxy⟩⟩

/-- The free variables of a renamed tree are the new names of its free variables, if the new name
does not occur in it. -/
theorem free_tree {t : Tree} (h : Surface false t) {r : Renaming}
    (hr : ∀ old new, r = some (old, new) → new ∉ t.names) (x : String) :
  (r.tree t).Free x ↔ ∃ y, t.Free y ∧ x = r.name y
  := by
  induction h generalizing r with
  | literal value =>
    rw [Renaming.tree]
    apply iff_of_false not_free_literal
    rintro ⟨y, hy, -⟩
    exact not_free_literal hy
  | var y => simp [Renaming.tree, free_var]
  | operation _ _ ih =>
    rw [Renaming.tree, Renaming.trees_eq_map, free_operation, exists_free_trees]
    · simp only [free_operation]
    · intro t ht
      exact ih t ht fun old new h hnew => hr old new h (mem_namesAll.mpr ⟨t, ht, hnew⟩)
  | trivialConditional _ _ _ _ ihtest ihconseq ihalt
  | seriousConditional _ _ _ ihtest ihconseq ihalt =>
    simp only [names, List.mem_append, not_or] at hr
    rw [Renaming.tree, free_conditional, ihtest fun old new h => (hr old new h).1.1,
      ihconseq fun old new h => (hr old new h).1.2, ihalt fun old new h => (hr old new h).2]
    simp only [free_conditional, or_and_right, exists_or]
  | abstraction params _ ih =>
    simp only [names, List.mem_append, not_or] at hr
    rw [Renaming.tree, free_abstraction, ih, exists_name_under fun old new h => (hr old new h).1]
    · simp only [free_abstraction]
    · intro old new h
      exact (hr old new (Option.filter_eq_some_iff.mp h).1).2
  | definition name params hnested _ _ => contradiction
  | @application rator rands _ _ ihrator ihrands =>
    simp only [names, List.mem_append, mem_namesAll, not_or] at hr
    rw [Renaming.tree, Renaming.trees_eq_map, free_application, ← List.map_cons, exists_free_trees]
    · simp only [free_application]
    · intro t ht
      obtain rfl | ht := List.mem_cons.mp ht
      · exact ihrator fun old new h => (hr old new h).1
      · exact ihrands t ht fun old new h hnew => (hr old new h).2 ⟨t, ht, hnew⟩

/-- The names of a renamed tree are those of the tree and the new name. -/
theorem mem_names_of_tree {t : Tree} (h : Surface false t) {r : Renaming} {x : String}
    (hx : x ∈ (r.tree t).names) :
  x ∈ t.names ∨ ∃ old, r = some (old, x)
  := by
  induction h generalizing r with
  | literal value => exact .inl hx
  | var y =>
    obtain ⟨new, hr, hname⟩ | hname := Renaming.name_cases r y
    · cases List.mem_singleton.mp hx
      exact .inr ⟨y, by rw [hname, hr]⟩
    · rw [Renaming.tree, hname] at hx
      exact .inl hx
  | operation _ _ ih =>
    rw [Renaming.tree, Renaming.trees_eq_map, names, mem_namesAll] at hx
    obtain ⟨u, hu, hx⟩ := hx
    obtain ⟨t, ht, rfl⟩ := List.mem_map.mp hu
    exact (ih t ht hx).imp_left fun hx => mem_namesAll.mpr ⟨t, ht, hx⟩
  | trivialConditional _ _ _ _ ihtest ihconseq ihalt
  | seriousConditional _ _ _ ihtest ihconseq ihalt =>
    rw [Renaming.tree, names, List.mem_append, List.mem_append] at hx
    rw [names, List.mem_append, List.mem_append]
    obtain (hx | hx) | hx := hx
    · exact (ihtest hx).imp_left fun hx => .inl (.inl hx)
    · exact (ihconseq hx).imp_left fun hx => .inl (.inr hx)
    · exact (ihalt hx).imp_left .inr
  | abstraction params _ ih =>
    rw [Renaming.tree, names, List.mem_append] at hx
    obtain hx | hx := hx
    · exact .inl (List.mem_append_left _ hx)
    · refine (ih hx).imp (List.mem_append_right _) ?_
      rintro ⟨old, h⟩
      exact ⟨old, (Option.filter_eq_some_iff.mp h).1⟩
  | definition name params hnested _ _ => contradiction
  | application _ _ ihrator ihrands =>
    rw [Renaming.tree, Renaming.trees_eq_map, names, List.mem_append, mem_namesAll] at hx
    obtain hx | ⟨u, hu, hx⟩ := hx
    · exact (ihrator hx).imp_left (List.mem_append_left _)
    · obtain ⟨t, ht, rfl⟩ := List.mem_map.mp hu
      exact (ihrands t ht hx).imp_left fun hx =>
        List.mem_append_right _ (mem_namesAll.mpr ⟨t, ht, hx⟩)

/-! ### Suspension -/

/-- A child of a suspended node: it is suspended itself, and its evaluation may be delayed. -/
def SuspendsTo (c c' : Tree) : Prop :=
  ∃ b, c.suspend = .ok b ∧ (c' = b ∨ c' = b.delayed)

/-- Trees are suspended one by one. -/
theorem forall₂_suspendAll {ts us : List Tree} (h : suspendAll ts = .ok us) :
  List.Forall₂ SuspendsTo ts us
  := by
  induction ts generalizing us with
  | nil =>
    cases h
    exact .nil
  | cons t ts ih =>
    simp only [suspendAll, Except.bind_eq_ok] at h
    obtain ⟨u, hu, us', hus, h⟩ := h
    cases h
    exact .cons ⟨u, hu, .inl rfl⟩ (ih hus)

/-- A suspended node binds the same names and has suspended children. -/
theorem suspend_cases {t u : Tree} (h : t.suspend = .ok u) :
  (∃ x, t = var x ∧ u = var x)
    ∨ ((∀ x, t ≠ var x) ∧ (∀ x, u ≠ var x) ∧ u.binders = t.binders
      ∧ List.Forall₂ SuspendsTo t.children u.children)
  := by
  cases t with
  | var x =>
    cases h
    exact .inl ⟨x, rfl, rfl⟩
  | literal value =>
    cases h
    exact .inr ⟨by simp, by simp, rfl, .nil⟩
  | operation op operands =>
    simp only [suspend, Except.bind_eq_ok] at h
    obtain ⟨us, hus, h⟩ := h
    cases h
    exact .inr ⟨by simp, by simp, rfl, forall₂_suspendAll hus⟩
  | conditional sort test conseq alt =>
    cases sort with
    | converted =>
      simp only [suspend, Except.bind_eq_ok] at h
      obtain ⟨test', htest, conseq', hconseq, alt', halt, h⟩ := h
      cases h
      exact .inr ⟨by simp, by simp, rfl, .cons ⟨_, htest, .inl rfl⟩ (.cons ⟨_, hconseq, .inl rfl⟩
        (.cons ⟨_, halt, .inl rfl⟩ .nil))⟩
    | plain | trivial | serious => contradiction
  | abstraction params body =>
    simp only [suspend, Except.bind_eq_ok] at h
    obtain ⟨u, hu, h⟩ := h
    cases h
    exact .inr ⟨by simp, by simp, rfl, .cons ⟨u, hu, .inr rfl⟩ .nil⟩
  | definition name params body own =>
    simp only [suspend, Except.bind_eq_ok] at h
    obtain ⟨u, hu, h⟩ := h
    cases h
    exact .inr ⟨by simp, by simp, rfl, .cons ⟨u, hu, .inr rfl⟩ .nil⟩
  | application rator rands =>
    simp only [suspend, Except.bind_eq_ok] at h
    obtain ⟨f, hf, us, hus, h⟩ := h
    cases h
    exact .inr ⟨by simp, by simp, rfl, .cons ⟨f, hf, .inl rfl⟩ (forall₂_suspendAll hus)⟩
  | blank | continuation _ _ | resumption _ _ | entry _ _ _ _ _ | program _ _ | nothing | number _
  | text _ | list _ | tuple _ => contradiction

/-- A tree that is suspended, and perhaps delayed, has no other free variables. -/
theorem free_of_suspendsTo {t u : Tree} {x : String} (h : SuspendsTo t u) (hx : u.Free x) :
  t.Free x
  := by
  induction hx generalizing t with
  | var =>
    obtain ⟨b, hb, rfl | hdelayed⟩ := h
    · obtain ⟨y, rfl, hy⟩ | ⟨-, hu, -⟩ := suspend_cases hb
      · cases hy
        exact .var
      · exact absurd rfl (hu x)
    · contradiction
  | @child u c hc hbinders hfree ih =>
    obtain ⟨b, hb, rfl | rfl⟩ := h
    · obtain ⟨y, rfl, rfl⟩ | ⟨ht, -, hsame, hchildren⟩ := suspend_cases hb
      · contradiction
      · obtain ⟨c₀, hc₀, hrelated⟩ := exists_of_mem_right hchildren hc
        rw [hsame] at hbinders
        exact .child hc₀ hbinders (ih hrelated)
    · cases List.mem_singleton.mp hc
      exact ih ⟨c, hb, .inl rfl⟩

/-- A suspended tree has the same free variables. -/
theorem free_suspend {t u : Tree} (h : t.suspend = .ok u) (x : String) : u.Free x ↔ t.Free x := by
  constructor
  · exact free_of_suspendsTo ⟨u, h, .inl rfl⟩
  · intro hx
    induction hx generalizing u with
    | var =>
      cases h
      exact .var
    | @child t c hc hbinders hfree ih =>
      obtain ⟨y, rfl, rfl⟩ | ⟨-, -, hsame, hchildren⟩ := suspend_cases h
      · contradiction
      · obtain ⟨c', hc', b, hb, hrelated⟩ := exists_of_mem_right hchildren.flip hc
        rw [← hsame] at hbinders
        apply Free.child hc' hbinders
        obtain rfl | rfl := hrelated
        · exact ih hb
        · exact .child List.mem_cons_self List.not_mem_nil (ih hb)

/-! ### Threading -/

/-- The name is no fresh name with the given number or a later one. -/
def Predates (n : Int) (x : String) : Prop :=
  ∀ base i, n ≤ i → x ≠ nameOf base i

/-- A name that predates a number predates later ones. -/
theorem Predates.mono {m n : Int} {x : String} (h : Predates m x) (hmn : m ≤ n) : Predates n x := by
  intro base i hi
  exact h base i (hmn.trans hi)

/-- A fresh name predates later numbers. -/
theorem predates_nameOf (base : String) {m n : Int} (h : m < n) : Predates n (nameOf base m) := by
  intro base' i hi heq
  obtain ⟨-, hmi⟩ := nameOf_injective heq
  omega

/-- The variable is free in the continuation, if there is one. -/
def FreeIn (k? : Option Tree) (x : String) : Prop :=
  ∃ k ∈ k?, k.Free x

/-- In a variable that is the continuation it is free itself. -/
theorem freeIn_var {x y : String} : FreeIn (some (var y)) x ↔ x = y := by
  simp [FreeIn, free_var]

/-- The free variables of a continuation that is a function of one value. -/
theorem freeIn_abstraction {x s : String} {body : Tree} :
  FreeIn (some (abstraction [s] body)) x ↔ x ≠ s ∧ body.Free x
  := by
  simp [FreeIn, free_abstraction]

/-- Threading a continuation through the tree keeps the free variables of both, other than the name
of the helper, if none of them looks like a fresh name. -/
def KeepsFree (ak : String) (t : Tree) : Prop :=
  ∀ k? n, (∀ x ∈ t.names, Predates n x) → (∀ x ≠ ak, FreeIn k? x → Predates n x) →
    ∀ x ≠ ak, (threaded ak k? t n).1.Free x ↔ t.Free x ∨ FreeIn k? x

section Threaded

variable {ak : String}

/-- A value that is handed on keeps its free variables and those of the continuation. -/
theorem free_handed {x : String} (hx : x ≠ ak) (k? : Option Tree) (value : Tree) :
  (handed ak k? value).Free x ↔ value.Free x ∨ FreeIn k? x
  := by
  cases k? with
  | none => simp [handed, FreeIn]
  | some k =>
    rw [handed, free_application]
    simp [free_var, hx, FreeIn, or_comm]

/-- The names of parts that are computed first are fresh. -/
theorem number_of_mem_pending {ts : List Tree} {n : Int} {s : String}
    (h : some s ∈ (threadedParts ak ts n).1.2) :
  ∃ i, n ≤ i ∧ i < (threadedParts ak ts n).2 ∧ s = nameOf "s" i
  := by
  induction ts generalizing n with
  | nil =>
    rw [threadedParts] at h
    contradiction
  | cons t ts ih =>
    rw [threadedParts] at h ⊢
    split at h
    · rename_i htrivial
      rw [if_pos htrivial]
      obtain ⟨i, hi, hlt, hs⟩ := ih (by simpa using h)
      exact ⟨i, (le_threaded ak none t n).trans hi, hlt, hs⟩
    · rename_i hserious
      rw [if_neg hserious]
      obtain hs | h := List.mem_cons.mp h
      · have hlt := le_threadedParts ak ts (n + 1)
        exact ⟨n, le_refl n, by dsimp only; omega, Option.some.inj hs⟩
      · obtain ⟨i, hi, hlt, hs⟩ := ih h
        exact ⟨i, by omega, hlt, hs⟩

/-- The free variables of the values that stand for parts are those of the trivial parts and the
names of the others. -/
theorem free_threadedParts {ts : List Tree} (h : ∀ t ∈ ts, KeepsFree ak t) {n : Int}
    (hnames : ∀ t ∈ ts, ∀ x ∈ t.names, Predates n x) {x : String} (hx : x ≠ ak) :
  (∃ v ∈ (threadedParts ak ts n).1.1, v.Free x)
    ↔ (∃ t ∈ ts, t.isTrivial ∧ t.Free x) ∨ some x ∈ (threadedParts ak ts n).1.2
  := by
  induction ts generalizing n with
  | nil => simp [threadedParts]
  | cons t ts ih =>
    obtain ⟨ht, hts⟩ := List.forall_mem_cons.mp h
    obtain ⟨hname, hnames⟩ := List.forall_mem_cons.mp hnames
    rw [threadedParts]
    split
    · rename_i htrivial
      have hfirst := ht none n hname (by simp [FreeIn]) x hx
      have hle := le_threaded ak none t n
      have hrest := ih hts fun u hu y hy => (hnames u hu y hy).mono hle
      rw [List.exists_mem_cons_iff, hfirst, hrest, List.exists_mem_cons_iff, List.mem_cons]
      simp [FreeIn, htrivial, or_assoc]
    · rename_i hserious
      have hrest := ih hts fun u hu y hy => (hnames u hu y hy).mono (by omega : n ≤ n + 1)
      rw [List.exists_mem_cons_iff, free_var, hrest, List.exists_mem_cons_iff, List.mem_cons]
      simp [hserious, or_left_comm]

/-- What is computed first adds its free variables to those of a tree, and binds the names of its
values. -/
theorem free_threadedPending {ts : List Tree} (hsurface : ∀ t ∈ ts, Surface false t)
    (h : ∀ t ∈ ts, KeepsFree ak t) {n m : Int}
    (hm : (threadedParts ak ts n).2 ≤ m) (hnames : ∀ t ∈ ts, ∀ x ∈ t.names, Predates n x)
    {result : Tree} (hresult : ∀ x ≠ ak, result.Free x → Predates m x) {x : String} (hx : x ≠ ak) :
  (threadedPending ak ts (threadedParts ak ts n).1.2 result m).1.Free x
    ↔ (∃ t ∈ ts, ¬ t.isTrivial ∧ t.Free x)
      ∨ (result.Free x ∧ some x ∉ (threadedParts ak ts n).1.2)
  := by
  induction ts generalizing n x with
  | nil =>
    rw [threadedParts, threadedPending]
    · simp
    all_goals intros; contradiction
  | cons t ts ih =>
    obtain ⟨ht, hts⟩ := List.forall_mem_cons.mp h
    obtain ⟨-, htsSurface⟩ := List.forall_mem_cons.mp hsurface
    obtain ⟨hname, hnames⟩ := List.forall_mem_cons.mp hnames
    rw [threadedParts] at hm ⊢
    split
    · rename_i htrivial
      rw [if_pos htrivial] at hm
      have hle := le_threaded ak none t n
      have hrest := ih htsSurface hts hm (fun u hu y hy => (hnames u hu y hy).mono hle) hx
      rw [threadedPending, hrest]
      simp [htrivial]
    · rename_i hserious
      rw [if_neg hserious] at hm
      dsimp only at hm
      have hrest := fun y => @ih htsSurface hts (n + 1) hm
        (fun u hu y hy => (hnames u hu y hy).mono (by omega)) y
      have hle := (le_threadedParts ak ts (n + 1)).trans hm
      have hle' := le_threadedPending ak ts (threadedParts ak ts (n + 1)).1.2 result m
      have hlater : ∀ u ∈ ts, ∀ y, u.Free y → Predates n y := fun u hu y hy =>
        hnames u hu y (mem_names_of_free (htsSurface u hu) hy)
      have hk : ∀ y ≠ ak, FreeIn (some (abstraction [nameOf "s" n] (threadedPending ak ts
          (threadedParts ak ts (n + 1)).1.2 result m).1)) y → Predates
          (threadedPending ak ts (threadedParts ak ts (n + 1)).1.2 result m).2 y := by
        intro y hy hfree
        obtain ⟨u, hu, -, hfree⟩ | ⟨hfree, -⟩ := (hrest y hy).mp (freeIn_abstraction.mp hfree).2
        · exact (hlater u hu y hfree).mono (by omega)
        · exact (hresult y hy hfree).mono hle'
      rw [threadedPending, ht _ _ (fun y hy => (hname y hy).mono (by omega)) hk x hx,
        freeIn_abstraction, hrest x hx, List.exists_mem_cons_iff]
      have hs : (∃ u ∈ ts, ¬ u.isTrivial ∧ u.Free x) → x ≠ nameOf "s" n := by
        rintro ⟨u, hu, -, hfree⟩
        exact hlater u hu x hfree "s" n (le_refl n)
      rw [and_iff_right hserious, List.mem_cons, Option.some.injEq, not_or]
      constructor
      · rintro (hfree | ⟨hne, hfree | ⟨hfree, hnot⟩⟩)
        · exact .inl (.inl hfree)
        · exact .inl (.inr hfree)
        · exact .inr ⟨hfree, hne, hnot⟩
      · rintro ((hfree | hfree) | ⟨hfree, hne, hnot⟩)
        · exact .inl hfree
        · exact .inr ⟨hs hfree, .inl hfree⟩
        · exact .inr ⟨hne, .inr ⟨hfree, hnot⟩⟩

/-- A tree that is put together from the values of parts, with what is computed first in front of
it, has the free variables of the parts and those that it adds to the values. -/
theorem free_of_parts {ts : List Tree} (hsurface : ∀ t ∈ ts, Surface false t)
    (h : ∀ t ∈ ts, KeepsFree ak t) {n : Int}
    (hnames : ∀ t ∈ ts, ∀ x ∈ t.names, Predates n x) {result : Tree} (extra : String → Prop)
    (hextra : ∀ x ≠ ak, extra x → Predates n x)
    (hresult : ∀ x ≠ ak,
      result.Free x ↔ (∃ v ∈ (threadedParts ak ts n).1.1, v.Free x) ∨ extra x) {x : String}
    (hx : x ≠ ak) :
  (threadedPending ak ts (threadedParts ak ts n).1.2 result (threadedParts ak ts n).2).1.Free x
    ↔ (∃ t ∈ ts, t.Free x) ∨ extra x
  := by
  have hle := le_threadedParts ak ts n
  have hfree : ∀ t ∈ ts, ∀ y, t.Free y → Predates n y := fun t ht y hy =>
    hnames t ht y (mem_names_of_free (hsurface t ht) hy)
  have hpredates : ∀ y ≠ ak, result.Free y → Predates (threadedParts ak ts n).2 y := by
    intro y hy hfreeResult
    rw [hresult y hy, free_threadedParts h hnames hy] at hfreeResult
    obtain (⟨t, ht, -, hfreePart⟩ | hpending) | hextraFree := hfreeResult
    · exact (hfree t ht y hfreePart).mono hle
    · obtain ⟨i, -, hi, rfl⟩ := number_of_mem_pending hpending
      exact predates_nameOf "s" hi
    · exact (hextra y hy hextraFree).mono hle
  have hbound : Predates n x → some x ∉ (threadedParts ak ts n).1.2 := by
    intro hx hpending
    obtain ⟨i, hi, -, hs⟩ := number_of_mem_pending hpending
    exact hx "s" i hi hs
  rw [free_threadedPending hsurface h (le_refl _) hnames hpredates hx, hresult x hx,
    free_threadedParts h hnames hx]
  constructor
  · rintro (⟨t, ht, -, hfreePart⟩ | ⟨(⟨t, ht, -, hfreePart⟩ | hpending) | hextraFree, hnot⟩)
    · exact .inl ⟨t, ht, hfreePart⟩
    · exact .inl ⟨t, ht, hfreePart⟩
    · exact absurd hpending hnot
    · exact .inr hextraFree
  · rintro (⟨t, ht, hfreePart⟩ | hextraFree)
    · by_cases htrivial : t.isTrivial
      · exact .inr ⟨.inl (.inl ⟨t, ht, htrivial, hfreePart⟩), hbound (hfree t ht x hfreePart)⟩
      · exact .inl ⟨t, ht, htrivial, hfreePart⟩
    · exact .inr ⟨.inr hextraFree, hbound (hextra x hx hextraFree)⟩

/-- Threading a continuation through a surface tree keeps the free variables of both. -/
theorem keepsFree_of_surface {t : Tree} (ht : Surface false t) : KeepsFree ak t := by
  induction ht with
  | literal value =>
    intro k? n hnames hk x hx
    rw [threaded, free_handed hx]
  | var y =>
    intro k? n hnames hk x hx
    rw [threaded, free_handed hx]
  | @operation op operands hcount hoperands ih =>
    intro k? n hnames hk x hx
    rw [threaded, free_of_parts hoperands ih
      (fun t ht y hy => hnames y (mem_namesAll.mpr ⟨t, ht, hy⟩)) (FreeIn k?) hk ?_ hx,
      free_operation]
    intro y hy
    rw [free_handed hy, free_operation]
  | @trivialConditional test conseq alt htrivial htest hconseq halt ihtest ihconseq ihalt =>
    intro k? n hnames hk x hx
    simp only [names, List.mem_append, or_imp, forall_and] at hnames
    obtain ⟨⟨htestNames, hconseqNames⟩, haltNames⟩ := hnames
    have hle := le_threaded ak none test n
    have hle' := le_threaded ak none conseq (threaded ak none test n).2
    have hnone : ∀ m y, y ≠ ak → FreeIn none y → Predates m y := by simp [FreeIn]
    rw [threaded, free_handed hx, free_conditional, free_conditional,
      ihtest none _ htestNames (hnone _) x hx,
      ihconseq none _ (fun y hy => (hconseqNames y hy).mono hle) (hnone _) x hx,
      ihalt none _ (fun y hy => (haltNames y hy).mono (hle.trans hle')) (hnone _) x hx]
    simp [FreeIn]
  | @seriousConditional test conseq alt htest hconseq halt ihtest ihconseq ihalt =>
    intro k? n hnames hk x hx
    simp only [names, List.mem_append, or_imp, forall_and] at hnames
    obtain ⟨⟨htestNames, hconseqNames⟩, haltNames⟩ := hnames
    have hle := le_threaded ak k? conseq n
    have hle' := hle.trans (le_threaded ak k? alt (threaded ak k? conseq n).2)
    have hconseqFree := ihconseq k? n hconseqNames hk
    have haltFree := ihalt k? _ (fun y hy => (haltNames y hy).mono hle)
      fun y hy hfree => (hk y hy hfree).mono hle
    rw [threaded_conditional, free_of_parts (List.forall_mem_singleton.mpr htest)
      (List.forall_mem_singleton.mpr ihtest)
      (List.forall_mem_singleton.mpr fun y hy => (htestNames y hy).mono hle')
      (fun y => (conseq.Free y ∨ FreeIn k? y) ∨ alt.Free y ∨ FreeIn k? y) ?_ ?_ hx,
      free_conditional]
    · simp only [List.mem_singleton, exists_eq_left]
      tauto
    · rintro y hy ((hfree | hfree) | hfree | hfree)
      · exact (hconseqNames y (mem_names_of_free hconseq hfree)).mono hle'
      · exact (hk y hy hfree).mono hle'
      · exact (haltNames y (mem_names_of_free halt hfree)).mono hle'
      · exact (hk y hy hfree).mono hle'
    · intro y hy
      generalize hm : (threaded ak k? alt (threaded ak k? conseq n).2).2 = m
      obtain ⟨test', htest'⟩ := exists_threadedParts_singleton ak test m
      rw [htest', chosen, free_conditional, hconseqFree y hy, haltFree y hy]
      simp
  | @abstraction params body hbody ih =>
    intro k? n hnames hk x hx
    simp only [names, List.mem_append, or_imp, forall_and] at hnames
    obtain ⟨-, hbodyNames⟩ := hnames
    have hfree := ih (some (var (nameOf "k" n))) (n + 1)
      (fun y hy => (hbodyNames y hy).mono (by omega)) ?_ x hx
    · rw [threaded, free_handed hx, free_abstraction, free_abstraction, hfree, freeIn_var,
        List.mem_append, List.mem_singleton]
      have hne : body.Free x → x ≠ nameOf "k" n := fun hfree =>
        hbodyNames x (mem_names_of_free hbody hfree) "k" n (le_refl n)
      tauto
    · intro y hy hfree
      rw [freeIn_var.mp hfree]
      exact predates_nameOf "k" (by omega)
  | definition name params hnested _ _ => contradiction
  | @application rator rands hrator hrands ihrator ihrands =>
    intro k? n hnames hk x hx
    simp only [names, List.mem_append, mem_namesAll, or_imp, forall_and] at hnames
    obtain ⟨hratorNames, hrandNames⟩ := hnames
    rw [threaded_application, free_of_parts (List.forall_mem_cons.mpr ⟨hrator, hrands⟩)
      (List.forall_mem_cons.mpr ⟨ihrator, ihrands⟩)
      (List.forall_mem_cons.mpr ⟨hratorNames, fun t ht y hy => hrandNames y ⟨t, ht, hy⟩⟩)
      (FreeIn k?) hk ?_ hx, free_application]
    intro y hy
    obtain ⟨rator', rands', hparts⟩ := exists_threadedParts_cons ak rator rands n
    rw [hparts, applied, free_application]
    cases k? with
    | none => simp [FreeIn]
    | some k => simp [FreeIn, or_comm, or_left_comm, exists_or, or_and_right]

end Threaded

end Tree

end Springboard
