import Springboard.Proofs.Activation
import Springboard.Proofs.Definitions
import Springboard.Proofs.FreshNames

/-!
# The names of a compiled program

The identifiers of a program come from its source or are coined while it is compiled. A coined name
ends in a number, and no identifier of the source may do so. Each definition uses coined names from
a span of numbers of its own, so its names stay apart when they are made identifiers, also from
those of the helpers and of the flags. With such names, a program that has been bound for
evaluation and loaded into a machine fits together on the two sides.
-/

namespace Springboard

open NameSource

/-! ### Names of the source -/

/-- Names of the source of some definitions, whose identifiers differ and do not end in a
number. -/
structure Lexicon (source : String → Prop) (Ds : List Definition) : Prop where
  surface {d : Definition} : d ∈ Ds → Surface false d.body
  names {d : Definition} : d ∈ Ds → ∀ x ∈ d.name :: (d.params ++ d.body.names), source x
  nodup {d : Definition} : d ∈ Ds → d.params.Nodup
  distinct {d : Definition} : d ∈ Ds → d.body.hasDistinctParams
  injective {x y : String} : source x → source y → mangle x = mangle y → x = y
  unnumbered {x : String} : source x → ¬ isNumbered (mangle x)

/-- Names that are coined for a definition that is converted at the number `m`, and for its body,
with numbers below `finish`. -/
def Coined (d : Definition) (m finish : Int) (x : String) : Prop :=
  ∃ base i, x = nameOf base i ∧ m ≤ i ∧ i < finish ∧ (i = m → base = d.name)
    ∧ (m < i → isWord base)

section Names

variable {source : String → Prop} {Ds : List Definition} {d : Definition} {m finish : Int}
variable {x y : String}

/-- The name by which a definition refers to itself is coined for it. -/
theorem Coined.own (hm : m < finish) : Coined d m finish (d.own m) := by
  refine ⟨d.name, m, rfl, Int.le_refl m, hm, fun _ => rfl, ?_⟩
  intro h
  omega

/-- Names with later numbers are coined for the body of a definition. -/
theorem Coined.of_lt {base : String} (hbase : isWord base) {i : Int} (hm : m < i)
    (hi : i < finish) :
  Coined d m finish (nameOf base i)
  := by
  refine ⟨base, i, rfl, Int.le_of_lt hm, hi, ?_, fun _ => hbase⟩
  intro h
  omega

/-- A coined name has an identifier that ends in a number. -/
theorem Coined.isNumbered (h : Coined d m finish x) (hm : 0 ≤ m) :
  Springboard.isNumbered (mangle x)
  := by
  obtain ⟨base, i, rfl, hi, -⟩ := h
  exact isNumbered_mangle_nameOf base (hm.trans hi)

/-- Names of the source and names coined for one definition have different identifiers. -/
theorem Lexicon.eq_of_mangle_eq
    (h : Lexicon source Ds) (hm : 0 ≤ m) (hx : source x ∨ Coined d m finish x)
    (hy : source y ∨ Coined d m finish y) (heq : mangle x = mangle y) :
  x = y
  := by
  rcases hx with hx | hx
  · rcases hy with hy | hy
    · exact h.injective hx hy heq
    · have hnumbered := hy.isNumbered hm
      rw [← heq] at hnumbered
      exact absurd hnumbered (h.unnumbered hx)
  · rcases hy with hy | hy
    · have hnumbered := hx.isNumbered hm
      rw [heq] at hnumbered
      exact absurd hnumbered (h.unnumbered hy)
    · obtain ⟨base, i, rfl, hi, -, hfirst, hword⟩ := hx
      obtain ⟨base', i', rfl, hi', -, hfirst', hword'⟩ := hy
      cases number_of_mangle_eq (hm.trans hi) (hm.trans hi') heq
      by_cases hsame : i = m
      · rw [hfirst hsame, hfirst' hsame]
      · have hlt : m < i := by omega
        rw [mangle_nameOf_of_isWord (hword hlt) (hm.trans hi),
          mangle_nameOf_of_isWord (hword' hlt) (hm.trans hi)] at heq
        exact heq

/-- A fresh name with a number outside the span of a definition has another identifier than the
names of the definition. -/
theorem Lexicon.mangle_ne
    (h : Lexicon source Ds) (hm : 0 ≤ m) (hx : source x ∨ Coined d m finish x) (base : String)
    {j : Int} (hj : 0 ≤ j) (houtside : j < m ∨ finish ≤ j) :
  mangle (nameOf base j) ≠ mangle x
  := by
  intro heq
  rcases hx with hx | ⟨base', i, rfl, hi, hend, -⟩
  · have hnumbered := isNumbered_mangle_nameOf base hj
    rw [heq] at hnumbered
    exact h.unnumbered hx hnumbered
  · have hnumber := number_of_mangle_eq hj (hm.trans hi) heq
    omega

/-- A name of the source is not a fresh name. -/
theorem Lexicon.ne_nameOf (h : Lexicon source Ds) (hx : source x) (base : String) {i : Int}
    (hi : 0 ≤ i) :
  x ≠ nameOf base i
  := by
  rintro rfl
  exact h.unnumbered hx (isNumbered_mangle_nameOf base hi)

/-- The names for data in a definition that is converted at the number `m`. -/
def IsData (source : String → Prop) (d : Definition) (m finish : Int) (x : String) : Prop :=
  source x ∨ x = d.own m ∨ ∃ i, m < i ∧ i < finish ∧ x = nameOf "s" i

/-- The names for continuations in a definition that is converted at the number `m`. -/
def IsCont (m finish : Int) (x : String) : Prop :=
  ∃ i, m < i ∧ i < finish ∧ x = nameOf "k" i

/-- The names that a definition uses are names of the source or are coined for it. -/
theorem coined_of_isData (hm : m < finish) (hx : IsData source d m finish x ∨ IsCont m finish x) :
  source x ∨ Coined d m finish x
  := by
  rcases hx with (hx | rfl | ⟨i, hi, hend, rfl⟩) | ⟨i, hi, hend, rfl⟩
  · exact .inl hx
  · exact .inr (.own hm)
  · exact .inr (.of_lt (by decide) hi hend)
  · exact .inr (.of_lt (by decide) hi hend)

/-- The idiom of a definition that is converted at the number `m`, where the helper that hands on
values has the number `n`. -/
def Lexicon.idiom (h : Lexicon source Ds) (base : String) {n : Int} (hn : 0 ≤ n) (d : Definition)
    {m finish : Int} (hm : n < m) (hfinish : m < finish) : Idiom mangle (nameOf base n) where
  data := IsData source d m finish
  cont := IsCont m finish
  cont_notData := by
    rintro x ⟨i, hi, -, rfl⟩ (hx | hx | ⟨j, -, -, hx⟩)
    · exact h.ne_nameOf hx "k" (by omega) rfl
    · have hnumber := (nameOf_injective hx).2
      omega
    · have hbase := (nameOf_injective hx).1
      contradiction
  injective hx hy := h.eq_of_mangle_eq (by omega) (coined_of_isData hfinish hx)
    (coined_of_isData hfinish hy)
  helper hx := (h.mangle_ne (by omega) (coined_of_isData hfinish hx) base hn (.inl hm)).symm

end Names

/-! ### Numbers -/

/-- Different definitions use spans of numbers that lie apart. -/
theorem Definition.span_of_mem_numbered {ak : String} {ds : List Definition} {n : Int}
    {p q : Definition × Int} (hp : p ∈ numbered ak ds n) (hq : q ∈ numbered ak ds n) :
  q.2 ≤ p.2 ∨ (Tree.threadedBody ak p.1.name p.1.params p.1.body p.2).2 ≤ q.2
  := by
  induction ds generalizing n with
  | nil => contradiction
  | cons d ds ih =>
    have hlt := lt_threadedBody ak d n
    rcases List.mem_cons.mp hp with rfl | hp
    · rcases List.mem_cons.mp hq with rfl | hq
      · exact .inl (Int.le_refl n)
      · exact .inr (number_of_mem_numbered hq).2.1
    · rcases List.mem_cons.mp hq with rfl | hq
      · have hle := (number_of_mem_numbered hp).2.1
        left
        dsimp only
        omega
      · exact ih hp hq

/-- The span of a definition ends before the number after all of them. -/
theorem Definition.span_le_numberAfter {ak : String} {ds : List Definition} {n : Int}
    {p : Definition × Int} (hp : p ∈ numbered ak ds n) :
  (Tree.threadedBody ak p.1.name p.1.params p.1.body p.2).2 ≤ numberAfter ak ds n
  := by
  induction ds generalizing n with
  | nil => contradiction
  | cons d ds ih =>
    rcases List.mem_cons.mp hp with rfl | hp
    · exact le_numberAfter ak ds _
    · exact ih hp

/-- No definition has a fresh name for its name. -/
theorem Lexicon.latest_nameOf {source : String → Prop} {Ds : List Definition}
    (h : Lexicon source Ds) (ak : String) (n : Int) (base : String) {i : Int} (hi : 0 ≤ i) :
  Definition.latest (nameOf base i) (Definition.numbered ak Ds n) = none
  := by
  cases hlatest : Definition.latest (nameOf base i) (Definition.numbered ak Ds n) with
  | none => rfl
  | some p =>
    obtain ⟨hp, hname⟩ := Definition.of_latest hlatest
    have hsource := h.names (Definition.number_of_mem_numbered hp).1 _ List.mem_cons_self
    exact absurd hname (h.ne_nameOf hsource base hi)

/-! ### Programs on both sides -/

/-- The name of the helper that hands on values, where the helpers have the numbers from `n` on. -/
def applyKName (n : Int) : String :=
  nameOf Helper.applyK.role n

/-- Definitions with the numbers at which they are converted, where the helpers have the four
numbers from `n` on. -/
def Definition.placed (Ds : List Definition) (n : Int) : List (Definition × Int) :=
  numbered (applyKName n) Ds (n + 4)

/-- The number of the first flag, where the helpers have the numbers from `n` on. -/
def Definition.firstFlag (Ds : List Definition) (n : Int) : Int :=
  numberAfter (applyKName n) Ds (n + 4)

/-- What evaluation knows of a converted program. -/
structure Installed (Ds : List Definition) (n : Int) (globals : List (String × Evaluation.Value)) :
    Prop where
  helper : ∃ id name, globals.lookup (applyKName n)
    = some (.closure id name ["f", "v"] Evaluation.handing [])
  own {p : Definition × Int} : p ∈ Definition.placed Ds n →
    ∃ id, globals.lookup (p.1.own p.2) = some (Evaluation.threadedValue (applyKName n) p id)
  bound {x : String} : x ≠ applyKName n → (∀ p ∈ Definition.placed Ds n, x ≠ p.1.own p.2) →
    Evaluation.Bound (Evaluation.threadedValue (applyKName n)) [] globals
      (Definition.placed Ds n) x

namespace Machine

/-- The routine of a converted definition; its flag has the number `f`. -/
def routine (n : Int) (p : Definition × Int) (f : Int) : Routine where
  name := p.1.name
  params := p.1.params
  k := nameOf "k" (p.2 + 1)
  own := p.1.own p.2
  flag := nameOf "done" f
  body := (Tree.threadedBody (applyKName n) p.1.name p.1.params p.1.body p.2).1

/-- The setting of a program whose helpers have the numbers from `n` on. -/
def setting (Ds : List Definition) (n : Int) (globals : List (String × Evaluation.Value))
    (spaces : List Namespace) (home : Nat) : Setting where
  ident := mangle
  ak := applyKName n
  makeFlag := nameOf Helper.makeFlag.role (n + 1)
  trampoline := nameOf Helper.trampoline.role (n + 3)
  routines r := ∃ p ∈ Definition.placed Ds n, ∃ f, Definition.firstFlag Ds n ≤ f ∧ r = routine n p f
  globals := globals
  spaces := spaces
  home := home

/-- The entry of a converted definition, whose flag has the number `f`; `id` is the identity of the
function. -/
def entryOf (n : Int) (home : Nat) (p : Definition × Int) (f : Int) (id : Nat) : Value :=
  (setting [] n [] [] home).entryValue (routine n p f) id

/-- What the machine knows of a program once it has been loaded. -/
structure Loaded (source : String → Prop) (Ds : List Definition) (n : Int) (home : Nat)
    (space : Namespace) : Prop where
  applyK : space.lookup (mangle (applyKName n)) = some (.helper .applyK)
  makeFlag : space.lookup (mangle (nameOf Helper.makeFlag.role (n + 1))) = some (.helper .makeFlag)
  trampoline : space.lookup (mangle (nameOf Helper.trampoline.role (n + 3)))
    = some (.helper .trampoline)
  entry {x : String} {p : Definition × Int} :
    Definition.latest x (Definition.placed Ds n) = some p →
      ∃ f id, Definition.firstFlag Ds n ≤ f
        ∧ space.lookup (mangle x) = some (entryOf n home p f id)
  other {x : String} : source x → Definition.latest x (Definition.placed Ds n) = none →
    space.lookup (mangle x) = none
  fresh (base : String) {i : Int} : n + 4 ≤ i → space.lookup (mangle (nameOf base i)) = none

section Fitting

-- names are compared as they stand, never by computing them
attribute [local irreducible] mangle nameOf

variable {source : String → Prop} {Ds : List Definition} {n : Int}
variable {globals : List (String × Evaluation.Value)} {spaces : List Namespace} {home : Nat}

/-- A definition has its number behind those of the helpers, and its span ends before the flags. -/
theorem span_of_mem_placed {p : Definition × Int} (hp : p ∈ Definition.placed Ds n) :
  n + 4 ≤ p.2
    ∧ p.2 + 1 < (Tree.threadedBody (applyKName n) p.1.name p.1.params p.1.body p.2).2
    ∧ (Tree.threadedBody (applyKName n) p.1.name p.1.params p.1.body p.2).2
      ≤ Definition.firstFlag Ds n
  := by
  exact ⟨(Definition.number_of_mem_numbered hp).2.1, Definition.lt_threadedBody _ _ _,
    Definition.span_le_numberAfter hp⟩

/-- The names of a definition stand for entries, if they have a value at the top of the module. -/
theorem admits_of_loaded
    (hloaded : Loaded source Ds n home (spaces[home]?.getD []))
    {p : Definition × Int} (hp : p ∈ Definition.placed Ds n) {x : String} {v : Value}
    {finish : Int} (hx : IsData source p.1 p.2 finish x ∨ IsCont p.2 finish x)
    (hv : (setting Ds n globals spaces home).space.lookup (mangle x) = some v) :
  ∃ r id, (setting Ds n globals spaces home).routines r
    ∧ v = (setting Ds n globals spaces home).entryValue r id
  := by
  have hspan := span_of_mem_placed hp
  have hfresh : ∀ base i, p.2 ≤ i → x = nameOf base i → False := by
    rintro base i hi rfl
    have hnone := hloaded.fresh base (by omega : n + 4 ≤ i)
    have hv : (spaces[home]?.getD []).lookup (mangle (nameOf base i)) = some v := hv
    rw [hnone] at hv
    contradiction
  rcases hx with (hx | hx | ⟨i, hi, -, hx⟩) | ⟨i, hi, -, hx⟩
  · cases hlatest : Definition.latest x (Definition.placed Ds n) with
    | none =>
      have hnone := hloaded.other hx hlatest
      have hv : (spaces[home]?.getD []).lookup (mangle x) = some v := hv
      rw [hnone] at hv
      contradiction
    | some q =>
      obtain ⟨f, id, hf, hentry⟩ := hloaded.entry hlatest
      have hv : (spaces[home]?.getD []).lookup (mangle x) = some v := hv
      rw [hentry] at hv
      cases hv
      exact ⟨routine n q f, id, ⟨q, (Definition.of_latest hlatest).1, f, hf, rfl⟩, rfl⟩
  · exact (hfresh _ _ (Int.le_refl _) hx).elim
  · exact (hfresh _ _ (Int.le_of_lt hi) hx).elim
  · exact (hfresh _ _ (Int.le_of_lt hi) hx).elim

/-- The names of a definition other than its own agree on the two sides. -/
theorem agree_of_loaded
    (h : Lexicon source Ds) (hn : 0 ≤ n) (hinstalled : Installed Ds n globals)
    (hloaded : Loaded source Ds n home (spaces[home]?.getD [])) {p : Definition × Int}
    (hp : p ∈ Definition.placed Ds n) {x : String}
    (hx : IsData source p.1 p.2
      (Tree.threadedBody (applyKName n) p.1.name p.1.params p.1.body p.2).2 x)
    (hown : x ≠ p.1.own p.2) :
  Agree (setting Ds n globals spaces home) [] [] x
  := by
  have hspan := span_of_mem_placed hp
  have hnumber : ∀ q ∈ Definition.placed Ds n, n + 4 ≤ q.2 :=
    fun q hq => (span_of_mem_placed hq).1
  rcases hx with hx | hx | ⟨i, hi, hend, rfl⟩
  · have hbound := hinstalled.bound (h.ne_nameOf hx _ hn)
      (fun q hq => h.ne_nameOf hx _ (by have := hnumber q hq; omega))
    unfold Evaluation.Bound at hbound
    cases hlatest : Definition.latest x (Definition.placed Ds n) with
    | some q =>
      left
      rw [hlatest] at hbound
      obtain ⟨id, hid⟩ := hbound
      obtain ⟨f, id', hf, hentry⟩ := hloaded.entry hlatest
      have hroutine : (setting Ds n globals spaces home).routines (routine n q f) :=
        ⟨q, (Definition.of_latest hlatest).1, f, hf, rfl⟩
      exact ⟨_, _, hid, hentry, .entry hroutine id id'⟩
    | none =>
      right
      rw [hlatest] at hbound
      exact ⟨hbound, hloaded.other hx hlatest⟩
  · exact absurd hx hown
  · right
    have hlatest := h.latest_nameOf (applyKName n) (n + 4) "s" (by omega : 0 ≤ i)
    have hbound : Evaluation.Bound (Evaluation.threadedValue (applyKName n)) [] globals
        (Definition.placed Ds n) (nameOf "s" i) := by
      apply hinstalled.bound
      · intro heq
        have hsame := (nameOf_injective heq).2
        omega
      · intro q hq heq
        have hsame := (nameOf_injective heq).2
        have hapart := Definition.span_of_mem_numbered hp hq
        omega
    have hnone := hloaded.fresh "s" (by omega : n + 4 ≤ i)
    unfold Evaluation.Bound at hbound
    rw [Definition.placed, hlatest] at hbound
    generalize nameOf "s" i = x at hbound hnone ⊢
    exact ⟨hbound, hnone⟩

/-- The idiom of a definition of a program. -/
def placedIdiom (h : Lexicon source Ds) (hn : 0 ≤ n) {p : Definition × Int}
    (hp : p ∈ Definition.placed Ds n) : Idiom mangle (applyKName n) :=
  have hspan := span_of_mem_placed hp
  h.idiom Helper.applyK.role hn p.1 (by omega : n < p.2)
    (by omega : p.2 < (Tree.threadedBody (applyKName n) p.1.name p.1.params p.1.body p.2).2)

/-- The parameters of a definition are data. -/
theorem data_of_mem_params
    (h : Lexicon source Ds) (hn : 0 ≤ n) {p : Definition × Int} (hp : p ∈ Definition.placed Ds n)
    {x : String} (hx : x ∈ p.1.params) :
  (placedIdiom h hn hp).data x
  := by
  have hnames := h.names (Definition.number_of_mem_numbered hp).1
  exact .inl (hnames x (List.mem_cons_of_mem _ (List.mem_append_left _ hx)))

/-- The continuation that a definition is given is a continuation. -/
theorem cont_of_placed
    (h : Lexicon source Ds) (hn : 0 ≤ n) {p : Definition × Int} (hp : p ∈ Definition.placed Ds n) :
  (placedIdiom h hn hp).cont (nameOf "k" (p.2 + 1))
  := by
  have hspan := span_of_mem_placed hp
  exact ⟨p.2 + 1, by omega, hspan.2.1, rfl⟩

/-- The body of a definition is written with the names of its idiom. -/
theorem fragment_body
    (h : Lexicon source Ds) (hn : 0 ≤ n) {p : Definition × Int} (hp : p ∈ Definition.placed Ds n) :
  Fragment (placedIdiom h hn hp) (.tail (nameOf "k" (p.2 + 1)))
    (Tree.threadedBody (applyKName n) p.1.name p.1.params p.1.body p.2).1
  := by
  have hmem := (Definition.number_of_mem_numbered hp).1
  have hfresh : ∀ {i}, p.2 + 2 ≤ i →
      i < (Tree.threadedBody (applyKName n) p.1.name p.1.params p.1.body p.2).2 →
        (placedIdiom h hn hp).data (nameOf "s" i) ∧ (placedIdiom h hn hp).cont (nameOf "k" i) := by
    intro i hi hend
    exact ⟨.inr (.inr ⟨i, by omega, hend, rfl⟩), ⟨i, by omega, hend, rfl⟩⟩
  have hself : ∀ f own, Renaming.under (some (p.1.name, p.1.own p.2)) p.1.params = some (f, own) →
      (placedIdiom h hn hp).data own := by
    intro f own hr
    rw [Renaming.under, Option.filter_eq_some_iff] at hr
    cases hr.1
    exact .inr (.inl rfl)
  have hnames : ∀ x ∈ p.1.body.names, (placedIdiom h hn hp).data x :=
    fun x hx => .inl (h.names hmem x (List.mem_cons_of_mem _ (List.mem_append_right _ hx)))
  have hthreads := Tree.threads_of_surface hfresh (h.surface hmem) hnames (h.distinct hmem) hself
    (Int.le_refl _)
  exact hthreads.2 (.given _) (Int.le_refl _)

/-- A definition is written with the names of its idiom. -/
theorem routine_suits
    (h : Lexicon source Ds) (hn : 0 ≤ n) (hinstalled : Installed Ds n globals)
    (hloaded : Loaded source Ds n home (spaces[home]?.getD [])) {p : Definition × Int}
    (hp : p ∈ Definition.placed Ds n) {f : Int} (hf : Definition.firstFlag Ds n ≤ f) :
  (setting Ds n globals spaces home).Suits (routine n p f) (placedIdiom h hn hp)
  := by
  obtain ⟨hnumber, hlt, hflags⟩ := span_of_mem_placed hp
  obtain ⟨hmem, -, -⟩ := Definition.number_of_mem_numbered hp
  -- the helpers have their numbers before the span of the definition, the flag behind it
  have hapart : ∀ base j, 0 ≤ j → j < p.2
      ∨ (Tree.threadedBody (applyKName n) p.1.name p.1.params p.1.body p.2).2 ≤ j →
        ∀ {x}, (placedIdiom h hn hp).data x ∨ (placedIdiom h hn hp).cont x →
          mangle (nameOf base j) ≠ mangle x := by
    intro base j hj houtside x hx
    exact h.mangle_ne (by omega) (coined_of_isData (by omega) hx) base hj houtside
  constructor
  · intro x v hx hv
    exact admits_of_loaded hloaded hp hx hv
  · exact data_of_mem_params h hn hp
  · exact h.nodup hmem
  · exact cont_of_placed h hn hp
  · exact .inr (.inl rfl)
  · intro hparam
    have hsource := h.names hmem _ (List.mem_cons_of_mem _ (List.mem_append_left _ hparam))
    exact h.ne_nameOf hsource p.1.name (by omega) rfl
  · exact fragment_body h hn hp
  · intro x hx
    exact hapart "done" f (by omega) (.inr (by omega)) hx
  · intro heq
    have hsame := number_of_mangle_eq (by omega) hn heq
    omega
  · intro x hx
    exact hapart _ (n + 1) (by omega) (.inl (by omega)) hx
  · intro x hx
    exact hapart _ (n + 3) (by omega) (.inl (by omega)) hx
  · intro heq
    have hsame := number_of_mangle_eq (by omega) (by omega) heq
    omega
  · exact hinstalled.own hp
  · intro x hx hne
    exact agree_of_loaded h hn hinstalled hloaded hp hx hne

/-- A program whose names keep apart fits together once it has been bound and loaded. -/
theorem setting_fits
    (h : Lexicon source Ds) (hn : 0 ≤ n) (hinstalled : Installed Ds n globals)
    (hloaded : Loaded source Ds n home (spaces[home]?.getD [])) :
  (setting Ds n globals spaces home).Fits
  := by
  refine ⟨⟨hinstalled.helper, hloaded.applyK⟩, hloaded.makeFlag, hloaded.trampoline, ?_⟩
  rintro r ⟨p, hp, f, hf, rfl⟩
  exact ⟨_, routine_suits h hn hinstalled hloaded hp hf⟩

end Fitting

end Machine

end Springboard
