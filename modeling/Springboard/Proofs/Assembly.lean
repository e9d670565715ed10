import Springboard.Machine.Load
import Springboard.Proofs.Conversion
import Springboard.Proofs.Lexicon
import Springboard.Tree.Trampoline

/-!
# Assembling and loading programs

Converted definitions are suspended, and their entries become a program. If the names of the source
keep apart, none of this fails: the module of the program has the four helpers and one entry for
each definition. Loading it binds each name to the entry of its last definition, and binding the
converted definitions for evaluation gives them their values under both of their names.
-/

namespace Springboard

open NameSource

/-! ### Helpers -/

/-- The table of the helpers' names, where these have the numbers from `n` on. -/
def helpersAt (n : Int) : List (String × String) :=
  [(Helper.applyK.role, applyKName n),
    (Helper.makeFlag.role, nameOf Helper.makeFlag.role (n + 1)),
    (Helper.identity.role, nameOf Helper.identity.role (n + 2)),
    (Helper.trampoline.role, nameOf Helper.trampoline.role (n + 3))]

/-- The helpers use up four numbers. -/
theorem helperNames_eq (start n : Int) :
  helperNames ⟨start, n⟩ = (helpersAt n, ⟨start, n + 4⟩)
  := by
  unfold helpersAt
  rw [show n + 3 = n + 1 + 1 + 1 by omega, show n + 2 = n + 1 + 1 by omega,
    show n + 4 = n + 1 + 1 + 1 + 1 by omega]
  rfl

/-- A pair with the smaller key comes first. -/
theorem Tree.pairLe_of_lt {a b : String × String} (h : a.1 < b.1) : Tree.pairLe a b := by
  rw [Tree.pairLe, decide_eq_true h, Bool.true_or]

/-- The table of the helpers' names is in order. -/
theorem sorted_helpersAt (n : Int) : sorted Tree.pairLe (helpersAt n) = helpersAt n := by
  have hflag : Helper.applyK.role < Helper.makeFlag.role := by decide
  have hidentity : Helper.makeFlag.role < Helper.identity.role := by decide
  have htrampoline : Helper.identity.role < Helper.trampoline.role := by decide
  simp only [helpersAt, sorted, insertSorted, Tree.pairLe_of_lt, hflag, hidentity, htrampoline,
    if_true]

namespace Machine

/-- The imports of a module whose helpers have the numbers from `n` on. -/
def importsAt (n : Int) : List (String × Helper) :=
  [(mangle (applyKName n), .applyK),
    (mangle (nameOf Helper.makeFlag.role (n + 1)), .makeFlag),
    (mangle (nameOf Helper.identity.role (n + 2)), .identity),
    (mangle (nameOf Helper.trampoline.role (n + 3)), .trampoline)]

/-- The entries of numbered definitions, whose flags have the numbers from `f` on. -/
def entriesAt (n : Int) : List (Definition × Int) → Int → List Entry
  | [], _ => []
  | p :: ps, f => (setting [] n [] [] 0).entry (routine n p f) :: entriesAt n ps (f + 1)

/-- The module of a program whose helpers have the numbers from `n` on. -/
def moduleAt (Ds : List Definition) (n : Int) : Module where
  imports := importsAt n
  identity := mangle (nameOf Helper.identity.role (n + 2))
  entries := entriesAt n (Definition.placed Ds n) (Definition.firstFlag Ds n)

section Assembly

-- names are compared as they stand, never by computing them
attribute [local irreducible] mangle nameOf

/-- The table of the helpers' names says what to import. -/
theorem importsOf?_helpersAt (n : Int) : Module.importsOf? (helpersAt n) = some (importsAt n) := by
  rfl

/-! ### Entries -/

/-- A converted definition whose body is suspended becomes an entry, with a fresh flag. -/
theorem toEntry_delayed
    (name : String) (params : List String) (k own : String) (body : Tree) (start f : Int) :
  (Tree.definition name (params ++ [k]) body.delayed (some own)).toEntry ⟨start, f⟩
    = .ok (.entry name params k (nameOf "done" f)
        (.definition own (params ++ [k]) body.delayed none), ⟨start, f + 1⟩)
  := by
  have hdelayed : body.delayed.isDelayed := rfl
  rw [Tree.toEntry.eq_def]
  dsimp only
  rw [List.getLast?_concat]
  dsimp only
  rw [if_pos hdelayed, Tree.naming_bind (Tree.freshName_eq "done" start f), List.dropLast_concat]
  rfl

/-- A converted definition whose body is written out becomes an entry. -/
theorem exists_entry
    (n : Int) {p : Definition × Int}
    (h : WrittenOut (Tree.threadedBody (applyKName n) p.1.name p.1.params p.1.body p.2).1) :
  ∃ t, (p.1.threaded (applyKName n) p.2).suspend = .ok t
    ∧ ∀ start f, ∃ e, t.toEntry ⟨start, f⟩ = .ok (e, ⟨start, f + 1⟩)
      ∧ Entry.ofTree? (helpersAt n) e = some ((setting [] n [] [] 0).entry (routine n p f))
  := by
  obtain ⟨u, hu, hcode⟩ := h
  refine ⟨.definition p.1.name (p.1.threadedParams p.2) u.delayed (some (p.1.own p.2)), ?_, ?_⟩
  · rw [Definition.threaded, Tree.suspend, hu]
    rfl
  intro start f
  refine ⟨_, toEntry_delayed p.1.name p.1.params (nameOf "k" (p.2 + 1)) (p.1.own p.2) u start f, ?_⟩
  have hbody : Code.ofTree? u.delayed = some (.lambda [] (codeOf mangle
      (Tree.threadedBody (applyKName n) p.1.name p.1.params p.1.body p.2).1)) := by
    rw [Tree.delayed, Code.ofTree?, hcode]
    rfl
  rw [Entry.ofTree?, hbody]
  rfl

/-- Converted definitions whose bodies are written out become entries together. -/
theorem exists_entries
    (n : Int) {ps : List (Definition × Int)}
    (h : ∀ p ∈ ps,
      WrittenOut (Tree.threadedBody (applyKName n) p.1.name p.1.params p.1.body p.2).1) :
  ∃ ts, Tree.suspendAll (ps.map fun p => p.1.threaded (applyKName n) p.2) = .ok ts
    ∧ ∀ start f, ∃ es names, Tree.toEntries ts ⟨start, f⟩ = .ok (es, names)
      ∧ es.mapM (Entry.ofTree? (helpersAt n)) = some (entriesAt n ps f)
  := by
  induction ps with
  | nil => exact ⟨[], rfl, fun start f => ⟨[], ⟨start, f⟩, rfl, rfl⟩⟩
  | cons p ps ih =>
    obtain ⟨t, ht, hentry⟩ := exists_entry n (h p List.mem_cons_self)
    obtain ⟨ts, hts, hentries⟩ := ih fun q hq => h q (List.mem_cons_of_mem _ hq)
    refine ⟨t :: ts, ?_, ?_⟩
    · rw [List.map_cons, Tree.suspendAll, ht, hts]
      rfl
    intro start f
    obtain ⟨e, he, hcode⟩ := hentry start f
    obtain ⟨es, names, hes, hcodes⟩ := hentries start (f + 1)
    refine ⟨e :: es, names, ?_, ?_⟩
    · rw [Tree.toEntries, Tree.naming_bind he, Tree.naming_bind hes]
      rfl
    · rw [List.mapM_cons, hcode, hcodes]
      rfl

variable {source : String → Prop} {Ds : List Definition} {n : Int}

/-- The entry of a definition is proper. -/
theorem isProper_entry
    (h : Lexicon source Ds) (hn : 0 ≤ n) {p : Definition × Int} (hp : p ∈ Definition.placed Ds n)
    (f : Int) :
  ((setting [] n [] [] 0).entry (routine n p f)).isProper
  := by
  have hnodup := nodup_map_params (placedIdiom h hn hp) (fun x hx => data_of_mem_params h hn hp hx)
    (cont_of_placed h hn hp) (h.nodup (Definition.number_of_mem_numbered hp).1)
  have hbody := isProper_codeOf (fragment_body h hn hp)
  have hparams : (p.1.params.map mangle ++ [mangle (nameOf "k" (p.2 + 1))]).Nodup := by
    rw [List.map_append] at hnodup
    exact hnodup
  rw [Entry.isProper]
  simp only [Setting.entry, setting, routine, Code.isProper, hnodup, hparams, hbody, List.nodup_nil,
    decide_true, Bool.and_true]

/-- The entries of definitions are proper. -/
theorem isProper_entriesAt
    (h : Lexicon source Ds) (hn : 0 ≤ n) {ps : List (Definition × Int)}
    (hps : ∀ p ∈ ps, p ∈ Definition.placed Ds n) (f : Int) :
  (entriesAt n ps f).all Entry.isProper
  := by
  induction ps generalizing f with
  | nil => rfl
  | cons p ps ih =>
    rw [entriesAt, List.all_cons, isProper_entry h hn (hps p List.mem_cons_self),
      ih (fun q hq => hps q (List.mem_cons_of_mem _ hq))]
    rfl

/-- Definitions whose names keep apart become a program that can be loaded. -/
theorem exists_program (h : Lexicon source Ds) (hn : 0 ≤ n) (start : Int) :
  ∃ ts program names,
    Tree.suspendAll ((Definition.placed Ds n).map fun p => p.1.threaded (applyKName n) p.2) = .ok ts
      ∧ Tree.toProgram (helpersAt n) ts ⟨start, Definition.firstFlag Ds n⟩ = .ok (program, names)
      ∧ Module.ofProgram program = .ok (moduleAt Ds n)
  := by
  obtain ⟨ts, hts, hentries⟩ := exists_entries n fun p hp =>
    writtenOut_of_fragment (fragment_body h hn hp)
  obtain ⟨es, names, hes, hcodes⟩ := hentries start (Definition.firstFlag Ds n)
  refine ⟨ts, Tree.programOf es (helpersAt n), names, hts, ?_, ?_⟩
  · rw [Tree.toProgram, Tree.naming_bind hes]
    rfl
  have hmodule : Module.ofProgram? (Tree.programOf es (helpersAt n)) = some (moduleAt Ds n) := by
    rw [Tree.programOf, sorted_helpersAt, Module.ofProgram?, importsOf?_helpersAt, hcodes]
    rfl
  have hproper : (moduleAt Ds n).isProper :=
    isProper_entriesAt h hn (fun p hp => hp) (Definition.firstFlag Ds n)
  rw [Module.ofProgram, hmodule]
  dsimp only
  rw [if_pos hproper]

/-! ### Loading -/

/-- A name has the value that it was given, and the others have the values they had. -/
theorem lookup_define (ns : Namespace) (x : String) (v : Value) (y : String) :
  (ns.define x v).lookup y = if y = x then some v else ns.lookup y
  := by
  apply lookup_cons_filter

/-- Imports bind their identifiers, and nothing else. -/
theorem lookup_bindImports
    {imports : List (String × Helper)} (hnodup : (imports.map Prod.fst).Nodup) (ns : Namespace) :
  (∀ ident helper, (ident, helper) ∈ imports →
      (bindImports imports ns).lookup ident = some (.helper helper))
    ∧ ∀ ident, ident ∉ imports.map Prod.fst → (bindImports imports ns).lookup ident = ns.lookup ident
  := by
  induction imports generalizing ns with
  | nil =>
    constructor
    · intro ident helper hmem
      contradiction
    · intro ident _
      rfl
  | cons first imports ih =>
    obtain ⟨ident₁, helper₁⟩ := first
    rw [List.map_cons, List.nodup_cons] at hnodup
    obtain ⟨hbound, hother⟩ := ih hnodup.2 (ns.define ident₁ (.helper helper₁))
    constructor
    · intro ident helper hmem
      rcases List.mem_cons.mp hmem with hfirst | hmem
      · cases hfirst
        exact (hother _ hnodup.1).trans ((lookup_define _ _ _ _).trans (if_pos rfl))
      · exact hbound ident helper hmem
    · intro ident hident
      rw [List.map_cons, List.mem_cons, not_or] at hident
      exact (hother ident hident.2).trans ((lookup_define _ _ _ _).trans (if_neg hident.1))

/-- Fresh names with different numbers have different identifiers. -/
theorem mangle_nameOf_ne {i j : Int} (hi : 0 ≤ i) (hj : 0 ≤ j) (hij : i ≠ j) (base base' : String) :
  mangle (nameOf base i) ≠ mangle (nameOf base' j)
  := by
  intro heq
  exact hij (number_of_mangle_eq hi hj heq)

/-- The helpers are imported under different identifiers. -/
theorem nodup_importsAt (hn : 0 ≤ n) : ((importsAt n).map Prod.fst).Nodup := by
  have hne : ∀ base base' (i j : Int), n ≤ i → i < j →
      mangle (nameOf base i) ≠ mangle (nameOf base' j) :=
    fun base base' i j hi hij => mangle_nameOf_ne (by omega) (by omega) (by omega) base base'
  simp only [importsAt, applyKName, List.map_cons, List.map_nil, List.nodup_cons, List.mem_cons,
    List.not_mem_nil, or_false, not_or, not_false_eq_true, List.nodup_nil, and_true]
  refine ⟨⟨?_, ?_, ?_⟩, ⟨?_, ?_⟩, ?_⟩
  all_goals exact hne _ _ _ _ (by omega) (by omega)

/-- The identifier of an import is that of a fresh name. -/
theorem exists_of_mem_importsAt {ident : String} (h : ident ∈ (importsAt n).map Prod.fst) :
  ∃ base i, n ≤ i ∧ i < n + 4 ∧ ident = mangle (nameOf base i)
  := by
  simp only [importsAt, applyKName, List.map_cons, List.map_nil, List.mem_cons, List.not_mem_nil,
    or_false] at h
  rcases h with rfl | rfl | rfl | rfl
  all_goals exact ⟨_, _, by omega, by omega, rfl⟩

/-- Binding entries binds each name of the source to the entry of its last definition, and nothing
else. -/
theorem bindEntries_entriesAt
    (hinjective : ∀ {x y}, source x → source y → mangle x = mangle y → x = y) (home : Nat)
    {identity : String} {ps : List (Definition × Int)} (hnames : ∀ p ∈ ps, source p.1.name)
    (hidentity : ∀ p ∈ ps, mangle p.1.name ≠ identity) (f : Int) {ns : Namespace}
    (hns : ns.lookup identity = some (.helper .identity)) (st : State) :
  ∃ ns' st', bindEntries home identity (entriesAt n ps f) ns st = .ok ns' st'
    ∧ st'.flags = st.flags
    ∧ (∀ ident, (∀ p ∈ ps, mangle p.1.name ≠ ident) → ns'.lookup ident = ns.lookup ident)
    ∧ ∀ x p, source x → Definition.latest x ps = some p →
        ∃ g id, f ≤ g ∧ ns'.lookup (mangle x) = some (entryOf n home p g id)
  := by
  induction ps generalizing f ns st with
  | nil => exact ⟨ns, st, rfl, rfl, fun ident _ => rfl, fun x p _ h => by contradiction⟩
  | cons p ps ih =>
    obtain ⟨ns', st', hbind, hflags, hother, hentry⟩ :=
      ih (fun q hq => hnames q (List.mem_cons_of_mem _ hq))
        (fun q hq => hidentity q (List.mem_cons_of_mem _ hq)) (f + 1)
        ((lookup_define ns _ (entryOf n home p f st.made) _).trans
          ((if_neg (hidentity p List.mem_cons_self).symm).trans hns)) ⟨st.flags, st.made + 1⟩
    refine ⟨ns', st', ?_, hflags, ?_, ?_⟩
    · have hlookup : lookup ns [] identity st = .ok (.helper .identity) st :=
        lookup_eq_ok.mpr ⟨hns, rfl⟩
      rw [entriesAt, bindEntries, bind_of_ok hlookup]
      exact hbind
    · intro ident hident
      rw [hother ident fun q hq => hident q (List.mem_cons_of_mem _ hq), lookup_define]
      exact if_neg (hident p List.mem_cons_self).symm
    · intro x q hx hq
      rw [Definition.latest_cons] at hq
      cases hlatest : Definition.latest x ps with
      | some q' =>
        rw [hlatest] at hq
        cases hq
        obtain ⟨g, id, hg, hid⟩ := hentry x q hx hlatest
        exact ⟨g, id, by omega, hid⟩
      | none =>
        rw [hlatest, Option.none_or, Option.ite_none_right_eq_some] at hq
        obtain ⟨rfl, hsame⟩ := hq
        cases hsame
        refine ⟨f, st.made, Int.le_refl f, ?_⟩
        -- the names of the later definitions have other identifiers
        rw [hother _ ?_, lookup_define]
        · exact if_pos rfl
        intro q hq heq
        have hname := hinjective (hnames q (List.mem_cons_of_mem _ hq)) hx heq
        exact Definition.latest_eq_none.mp hlatest q hq hname

/-- Loading a program succeeds, and gives its names the values they need. Before, no name of the
source that is not defined has a value, and no identifier that ends in a number. -/
theorem load_moduleAt
    (h : Lexicon source Ds) (hn : 0 ≤ n) (home : Nat) {ns : Namespace}
    (hundefined : ∀ x, source x → (∀ d ∈ Ds, d.name ≠ x) → ns.lookup (mangle x) = none)
    (hnumbered : ∀ ident, isNumbered ident → ns.lookup ident = none) (st : State) :
  ∃ ns' st', (moduleAt Ds n).load home ns st = .ok ns' st' ∧ st'.flags = st.flags
    ∧ Loaded source Ds n home ns'
  := by
  obtain ⟨himport, himportOther⟩ := lookup_bindImports (nodup_importsAt hn) ns
  have hnames : ∀ p ∈ Definition.placed Ds n, source p.1.name := fun p hp =>
    h.names (Definition.number_of_mem_numbered hp).1 _ List.mem_cons_self
  -- the identifiers of the source keep apart from those of fresh names
  have hfresh : ∀ base i, n ≤ i → ∀ x, source x → mangle x ≠ mangle (nameOf base i) := by
    intro base i hi x hx heq
    apply h.unnumbered hx
    rw [heq]
    exact isNumbered_mangle_nameOf base (by omega)
  obtain ⟨ns', st', hload, hflags, hother, hentry⟩ :=
    bindEntries_entriesAt h.injective home hnames
      (fun p hp => hfresh Helper.identity.role (n + 2) (by omega) _ (hnames p hp))
      (Definition.firstFlag Ds n) (himport _ .identity (by simp [importsAt])) st
  have hhelper : ∀ base i helper, n ≤ i → (mangle (nameOf base i), helper) ∈ importsAt n →
      ns'.lookup (mangle (nameOf base i)) = some (.helper helper) := by
    intro base i helper hi hmem
    rw [hother _ fun p hp => hfresh base i hi _ (hnames p hp)]
    exact himport _ helper hmem
  refine ⟨ns', st', hload, hflags, ?_⟩
  constructor
  · exact hhelper _ n _ (Int.le_refl n) (by simp [importsAt, applyKName])
  · exact hhelper _ (n + 1) _ (by omega) (by simp [importsAt])
  · exact hhelper _ (n + 3) _ (by omega) (by simp [importsAt])
  · intro x p hp
    obtain ⟨hmem, rfl⟩ := Definition.of_latest hp
    obtain ⟨g, id, hg, hid⟩ := hentry _ p (hnames p hmem) hp
    exact ⟨g, id, hg, hid⟩
  · intro x hx hlatest
    have hnone := Definition.latest_eq_none.mp hlatest
    rw [hother, himportOther, hundefined x hx]
    · intro d hd
      rw [← Definition.map_fst_numbered (applyKName n) Ds (n + 4), List.mem_map] at hd
      obtain ⟨p, hp, rfl⟩ := hd
      exact hnone p hp
    · intro hmem
      obtain ⟨base, i, hi, -, heq⟩ := exists_of_mem_importsAt hmem
      exact hfresh base i hi x hx heq
    · intro p hp heq
      exact hnone p hp (h.injective (hnames p hp) hx heq)
  · intro base i hi
    rw [hother _ fun p hp => hfresh base i (by omega) _ (hnames p hp), himportOther,
      hnumbered _ (isNumbered_mangle_nameOf base (by omega))]
    intro hmem
    obtain ⟨base', j, hj, hend, heq⟩ := exists_of_mem_importsAt hmem
    exact mangle_nameOf_ne (by omega) (by omega) (by omega) base base' heq

/-- The entries of a module stand in the order of its definitions. -/
theorem getElem?_entriesAt (n : Int) (ps : List (Definition × Int)) (f : Int) (i : Nat) :
  (entriesAt n ps f)[i]? = ps[i]?.map fun p => (setting [] n [] [] 0).entry (routine n p (f + i))
  := by
  induction ps generalizing f i with
  | nil => rfl
  | cons p ps ih =>
    cases i with
    | zero => simp [entriesAt]
    | succ i =>
      have hnumber : f + 1 + (i : Int) = f + ((i + 1 : Nat) : Int) := by omega
      rw [entriesAt, List.getElem?_cons_succ, List.getElem?_cons_succ, ih, hnumber]

end Assembly

end Machine

/-! ### Binding for evaluation -/

/-- Binding the converted definitions of a program gives them the values they need. -/
theorem exists_installed
    {source : String → Prop} {Ds : List Definition} {n : Int} (h : Lexicon source Ds) (hn : 0 ≤ n)
    (fuel made : Nat) :
  ∃ s, Evaluation.installProgram fuel (applyKName n)
      ((Definition.placed Ds n).map fun p => p.1.threaded (applyKName n) p.2) ⟨[], made⟩ = .ok () s
    ∧ Installed Ds n s.globals
  := by
  have hnumber : ∀ p ∈ Definition.placed Ds n, n + 4 ≤ p.2 := fun p hp =>
    (Definition.number_of_mem_numbered hp).2.1
  have hnames : ∀ p ∈ Definition.placed Ds n, ∀ q ∈ Definition.placed Ds n,
      p.1.name ≠ q.1.own q.2 := by
    intro p hp q hq
    have hsource := h.names (Definition.number_of_mem_numbered hp).1 _ List.mem_cons_self
    have hle := hnumber q hq
    exact h.ne_nameOf hsource _ (by omega)
  have hhelper : ∀ p ∈ Definition.placed Ds n, applyKName n ≠ p.1.own p.2 := by
    intro p hp heq
    have hle := hnumber p hp
    have hsame := (nameOf_injective heq).2
    omega
  obtain ⟨s, hs, ⟨id, hid⟩, hown, hbound⟩ := Evaluation.installProgram_threaded fuel
    (Definition.pairwise_numbered _ Ds (n + 4)) hnames hhelper ⟨[], made⟩
  exact ⟨s, hs, ⟨id, _, hid⟩, fun hp => hown _ hp, fun hx hother => hbound _ hx hother⟩

/-! ### Programs that were read -/

/-- Forms whose names keep apart: the parameters of every function are distinct, and different
names have different identifiers, none of which ends in a number. -/
structure WellNamed (ts : List Tree) : Prop where
  distinct : Tree.haveDistinctParams ts
  injective : ∀ x ∈ Tree.namesAll ts, ∀ y ∈ Tree.namesAll ts, mangle x = mangle y → x = y
  unnumbered : ∀ x ∈ Tree.namesAll ts, ¬ isNumbered (mangle x)

/-- Global names that stay out of the way of some forms: none of them is an identifier of the
forms, and none ends in a number. -/
structure Vacant (ts : List Tree) (ns : Machine.Namespace) : Prop where
  names : ∀ x ∈ Tree.namesAll ts, ns.lookup (mangle x) = none
  numbered : ∀ ident, isNumbered ident → ns.lookup ident = none

/-- The names of well named definitions. -/
theorem WellNamed.lexicon
    {Ds : List Definition} (h : WellNamed (Ds.map Definition.toTree))
    (hDs : ∀ d ∈ Ds, Surface false d.body) :
  Lexicon (· ∈ Tree.namesAll (Ds.map Definition.toTree)) Ds
  := by
  have hdistinct : ∀ d ∈ Ds, d.params.Nodup ∧ d.body.hasDistinctParams := by
    intro d hd
    have htree := Tree.haveDistinctParams_iff.mp h.distinct _ (List.mem_map_of_mem hd)
    rw [Definition.toTree, Tree.hasDistinctParams, Bool.and_eq_true, decide_eq_true_iff] at htree
    exact htree
  constructor
  · exact fun hd => hDs _ hd
  · intro d hd x hx
    exact Tree.mem_namesAll.mpr ⟨d.toTree, List.mem_map_of_mem hd, hx⟩
  · exact fun hd => (hdistinct _ hd).1
  · exact fun hd => (hdistinct _ hd).2
  · exact fun hx hy => h.injective _ hx _ hy
  · exact fun hx => h.unnumbered _ hx

/-- Draws names for the helpers, converts definitions, and makes a program of their entries. The
result is the name of the helper that hands on values, the converted definitions, and the
program. -/
def assemble (ds : List Tree) : Naming (String × List Tree × Tree) := do
  let helpers ← modifyGet helperNames
  let ak := (helpers.lookup Helper.applyK.role).getD ""
  let definitions ← convertDefinitions ak ds
  let suspended ← Tree.suspendAll definitions
  let program ← Tree.toProgram helpers suspended
  pure (ak, definitions, program)

/-- Definitions whose names keep apart can be assembled. -/
theorem assemble_eq
    {source : String → Prop} {Ds : List Definition} {n : Int} (h : Lexicon source Ds) (hn : 0 ≤ n)
    (start : Int) :
  ∃ program names, assemble (Ds.map Definition.toTree) ⟨start, n⟩
      = .ok ((applyKName n,
          (Definition.placed Ds n).map fun p => p.1.threaded (applyKName n) p.2, program), names)
    ∧ Machine.Module.ofProgram program = .ok (Machine.moduleAt Ds n)
  := by
  obtain ⟨ts, program, names, hts, hprogram, hmodule⟩ := Machine.exists_program h hn start
  refine ⟨program, names, ?_, hmodule⟩
  have hhelpers : (modifyGet helperNames : Naming _) ⟨start, n⟩
      = .ok (helpersAt n, ⟨start, n + 4⟩) := by
    rw [← helperNames_eq]
    rfl
  have hconvert := convertDefinitions_eq (applyKName n) (fun d hd => h.surface hd) start (n + 4)
  rw [← Definition.placed, ← Definition.firstFlag] at hconvert
  rw [assemble, Tree.naming_bind hhelpers]
  have hak : (List.lookup Helper.applyK.role (helpersAt n)).getD "" = applyKName n := rfl
  rw [hak, Tree.naming_bind hconvert, Tree.naming_bind (naming_lift hts _),
    Tree.naming_bind hprogram]
  rfl

end Springboard
