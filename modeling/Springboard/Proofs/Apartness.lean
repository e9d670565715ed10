import Springboard.Proofs.Compilation
import Springboard.Proofs.Visiting

/-!
# Fresh names keep apart

Each name that is drawn from a source has a number of its own, and the number stays when an identifier
is made of the name. Main statement: names that are drawn one after the other have different
identifiers, whatever their bases are. A program binds its helpers, and in each entry the inner
definition, the continuation and the flag, to names that were drawn in this way; so their identifiers
differ throughout the program, whatever its definitions are called.
-/

namespace Springboard

open NameSource Compile

/-! ### Names in the order of their numbers -/

/-- Names for some bases, drawn one after the other. -/
def NameSource.freshAll : List String → NameSource → List String × NameSource
  | [], names => ([], names)
  | base :: bases, names =>
    let (first, names) := names.fresh base
    let (rest, names) := freshAll bases names
    (first :: rest, names)

/-- The names were drawn in this order while the counter went from `n` to `m`. Others may have been
drawn in between. -/
inductive InOrder : Int → Int → List String → Prop
  | nil {n m : Int} (h : n ≤ m) : InOrder n m []
  | cons {n m i : Int} (base : String) {xs : List String} (hi : n ≤ i) (h : InOrder (i + 1) m xs) :
    InOrder n m (nameOf base i :: xs)

namespace InOrder

variable {l m n : Int} {xs ys : List String}

/-- The first of the names may have been drawn later. -/
theorem mono (h : InOrder m n xs) (hl : l ≤ m) : InOrder l n xs := by
  cases h with
  | nil h => exact .nil (hl.trans h)
  | cons base hi h => exact .cons base (hl.trans hi) h

/-- Names are drawn one after the other. -/
theorem append (hxs : InOrder l m xs) (hys : InOrder m n ys) : InOrder l n (xs ++ ys) := by
  induction hxs with
  | nil h => exact hys.mono h
  | cons base hi _ ih => exact .cons base hi (ih hys)

/-- A name has a number that the counter went through. -/
theorem exists_number (h : InOrder n m xs) {x : String} (hx : x ∈ xs) :
  ∃ base i, n ≤ i ∧ x = nameOf base i
  := by
  induction h with
  | nil _ => contradiction
  | @cons n m i base xs hi _ ih =>
    obtain rfl | hx := List.mem_cons.mp hx
    · exact ⟨base, i, hi, rfl⟩
    · obtain ⟨base', j, hj, hx⟩ := ih hx
      exact ⟨base', j, by omega, hx⟩

/-- The identifiers of names that were drawn one after the other differ. -/
theorem nodup_map_mangle (h : InOrder n m xs) (hn : 0 ≤ n) : (xs.map mangle).Nodup := by
  induction h with
  | nil _ => exact .nil
  | @cons n m i base xs hi hxs ih =>
    rw [List.map_cons, List.nodup_cons]
    refine ⟨?_, ih (by omega)⟩
    intro hmem
    obtain ⟨x, hx, heq⟩ := List.mem_map.mp hmem
    obtain ⟨base', j, hj, rfl⟩ := hxs.exists_number hx
    have hnumber := number_of_mangle_eq (by omega) (by omega) heq
    omega

end InOrder

/-- Names that are drawn one after the other are in order. -/
theorem inOrder_freshAll (bases : List String) (names : NameSource) :
  InOrder names.next (names.freshAll bases).2.next (names.freshAll bases).1
  := by
  induction bases generalizing names with
  | nil => exact .nil (le_refl _)
  | cons base bases ih => exact .cons base (le_refl _) (ih (names.fresh base).2)

/-! ### Names of definitions -/

namespace Tree

/-- The names that were drawn for a definition when it was converted: its inner name and its last
parameter. -/
def convertedNames : Tree → List String
  | definition _ params _ own => own.toList ++ params.getLast?.toList
  | _ => []

/-- The names of an entry beside its own and its parameters: those of the inner definition, of the
continuation and of the flag. -/
def entryNames : Tree → List String
  | entry _ _ k flag inner => inner.name?.toList ++ [k, flag]
  | _ => []

/-- The names of the helpers of a program, and those of its entries beside their own and their
parameters. -/
def drawnNames : Tree → List String
  | program definitions helpers => helpers.map Prod.snd ++ definitions.flatMap entryNames
  | _ => []

/-- Conversion gives no names back. -/
theorem le_of_convertNode {k? : Option Tree} {t u : Tree} {names names' : NameSource}
    (h : convertNode k? t names = .ok (u, names')) :
  names.next ≤ names'.next
  := by
  have htour := retraces_tourNode k? t ⟨names, []⟩
  cases hrun : tourNode k? t ⟨names, []⟩ with
  | error e =>
    rw [hrun, h] at htour
    contradiction
  | ok r =>
    rw [hrun, h] at htour
    obtain ⟨heq, -, hle⟩ := htour
    cases heq
    exact hle

/-- Conversion with a continuation gives no names back. -/
theorem le_of_convert {t k u : Tree} {names names' : NameSource}
    (h : t.convert (some k) names = .ok (u, names')) :
  names.next ≤ names'.next
  := by
  rw [convert] at h
  split at h
  · contradiction
  split at h
  · contradiction
  · exact le_of_convertNode h

/-- A definition that was converted has two names that were drawn, with the first two numbers. -/
theorem of_convertDefinition {t u : Tree} {names names' : NameSource}
    (h : t.convertDefinition names = .ok (u, names')) :
  ∃ name params body, u = definition name (params ++ [nameOf "k" (names.next + 1)]) body
      (some (nameOf name names.next))
    ∧ names.next + 2 ≤ names'.next
  := by
  cases t with
  | definition name params body own =>
    rw [convertDefinition, naming_bind (freshName_eq name names.start names.next),
      naming_bind (freshName_eq "k" names.start (names.next + 1))] at h
    -- the body is converted with the names that are left, be it renamed or not
    have hbody : ∀ body, (do
          let body ← convert body (some (var (nameOf "k" (names.next + 1))))
          pure (definition name (params ++ [nameOf "k" (names.next + 1)]) body
            (some (nameOf name names.next)))) ⟨names.start, names.next + 1 + 1⟩ = .ok (u, names') →
        ∃ body', u = definition name (params ++ [nameOf "k" (names.next + 1)]) body'
            (some (nameOf name names.next))
          ∧ names.next + 2 ≤ names'.next := by
      intro body h
      obtain ⟨body', names₁, hconvert, h⟩ := naming_bind_eq_ok.mp h
      cases h
      have hle : names.next + 1 + 1 ≤ names'.next := le_of_convert hconvert
      exact ⟨body', rfl, by omega⟩
    split at h
    · obtain ⟨body', hu, hle⟩ := hbody body h
      exact ⟨name, params, body', hu, hle⟩
    · obtain ⟨renamed, names₁, hrename, h⟩ := naming_bind_eq_ok.mp h
      cases hrenamed : rename name (nameOf name names.next) body with
      | error e =>
        rw [hrenamed] at hrename
        contradiction
      | ok renamed' =>
        rw [hrenamed] at hrename
        cases hrename
        obtain ⟨body', hu, hle⟩ := hbody renamed h
        exact ⟨name, params, body', hu, hle⟩
  | _ => contradiction

/-- An entry has the names that were drawn for the definition, and one for its flag. -/
theorem entryNames_of_toEntry {t e : Tree} {names names' : NameSource}
    (h : t.toEntry names = .ok (e, names')) :
  e.entryNames = t.convertedNames ++ [nameOf "done" names.next]
    ∧ names' = ⟨names.start, names.next + 1⟩
  := by
  cases t with
  | definition name params body own =>
    rw [toEntry.eq_def] at h
    dsimp only at h
    generalize hlast : params.getLast? = last at h
    cases own with
    | none => contradiction
    | some own =>
      cases last with
      | none => contradiction
      | some k =>
        dsimp only at h
        split at h
        · cases h
          simp [entryNames, convertedNames, hlast, name?]
        · contradiction
  | _ => contradiction

/-- Entries have the names that were drawn for the definitions, and one for each flag. -/
theorem inOrder_toEntries {ts es : List Tree} {names names' : NameSource}
    (h : toEntries ts names = .ok (es, names')) :
  ∃ flags, InOrder names.next names'.next flags ∧ flags.length = ts.length
    ∧ (es.flatMap entryNames).Perm (ts.flatMap convertedNames ++ flags)
  := by
  induction ts generalizing names es with
  | nil =>
    cases h
    exact ⟨[], .nil (le_refl _), rfl, .refl _⟩
  | cons t ts ih =>
    rw [toEntries, naming_bind_eq_ok] at h
    obtain ⟨e, names₁, he, h⟩ := h
    obtain ⟨es, names₂, hes, h⟩ := naming_bind_eq_ok.mp h
    cases h
    obtain ⟨hnames, rfl⟩ := entryNames_of_toEntry he
    obtain ⟨flags, horder, hlength, hperm⟩ := ih hes
    refine ⟨nameOf "done" names.next :: flags, .cons "done" (le_refl _) horder,
      congrArg (· + 1) hlength, ?_⟩
    rw [List.flatMap_cons, List.flatMap_cons, hnames, List.append_assoc, List.append_assoc]
    apply List.Perm.append_left
    exact (hperm.cons _).trans List.perm_middle.symm

end Tree

/-! ### Names of programs -/

/-- A definition that is compiled has two names that were drawn. -/
theorem inOrder_compileDefinition {ak : String} {t u : Tree} {p p' : Progress}
    (h : compileDefinition ak t p = .ok u p') :
  InOrder p.names.next p'.names.next u.convertedNames ∧ u.convertedNames.length = 2
  := by
  simp only [compileDefinition, bind_eq_ok, attempt_eq_ok, naming_eq_ok, pure_eq_ok] at h
  obtain ⟨converted, p₁, ⟨names, hconverted, rfl⟩, _, p₂, hp₂, abstracted, p₃, ⟨habstracted, rfl⟩,
    _, p₄, hp₄, suspended, p₅, ⟨hsuspended, rfl⟩, _, p₆, hp₆, rfl, rfl⟩ := h
  obtain ⟨name, params, body, rfl, hle⟩ := Tree.of_convertDefinition hconverted
  simp only [Tree.abstractK, Except.bind_eq_ok] at habstracted
  obtain ⟨body', -, habstracted⟩ := habstracted
  cases habstracted
  simp only [Tree.suspend, Except.bind_eq_ok] at hsuspended
  obtain ⟨body'', -, hsuspended⟩ := hsuspended
  cases hsuspended
  rw [note_eq_ok hp₆, note_eq_ok hp₄, note_eq_ok hp₂, Tree.convertedNames, List.getLast?_concat]
  refine ⟨?_, rfl⟩
  have hend : p.names.next + 1 + 1 ≤ names.next := by omega
  exact .cons name (le_refl _) (.cons "k" (le_refl _) (.nil hend))

/-- Definitions that are compiled have two names each, which were drawn one after the other. -/
theorem inOrder_compileDefinitions {entry : Tree} {ak : String} {seen : List String}
    {forms ts : List Tree} {p p' : Progress}
    (h : compileDefinitions entry ak seen forms p = .ok ts p') :
  InOrder p.names.next p'.names.next (ts.flatMap Tree.convertedNames)
    ∧ (ts.flatMap Tree.convertedNames).length = 2 * forms.length ∧ ts.length = forms.length
  := by
  induction forms generalizing seen p ts with
  | nil =>
    rw [compileDefinitions, pure_eq_ok] at h
    obtain ⟨rfl, rfl⟩ := h
    exact ⟨.nil (le_refl _), rfl, rfl⟩
  | cons form forms ih =>
    rw [compileDefinitions, bind_eq_ok] at h
    obtain ⟨defn, p₁, hdefn, h⟩ := h
    obtain ⟨-, rfl⟩ := attempt_eq_ok.mp hdefn
    dsimp only at h
    split at h
    · exact absurd h throw_ne_ok
    simp only [bind_eq_ok, pure_eq_ok] at h
    obtain ⟨_, p₂, hp₂, first, p₃, hfirst, rest, p₄, hrest, rfl, rfl⟩ := h
    obtain ⟨horder, hlength⟩ := inOrder_compileDefinition hfirst
    obtain ⟨horder', hlength', hcount⟩ := ih hrest
    rw [note_eq_ok hp₂] at horder
    rw [List.flatMap_cons, List.length_append, List.length_cons, List.length_cons]
    exact ⟨horder.append horder', by omega, by omega⟩

/-- The names of the helpers are drawn one after the other. -/
theorem inOrder_helpersAt (n : Int) : InOrder n (n + 4) ((helpersAt n).map Prod.snd) := by
  have horder := inOrder_freshAll (Helper.all.map Helper.role) ⟨n, n⟩
  have hnames : freshAll (Helper.all.map Helper.role) ⟨n, n⟩
      = ((helperNames ⟨n, n⟩).1.map Prod.snd, (helperNames ⟨n, n⟩).2) := rfl
  rwa [hnames, helperNames_eq] at horder

/-- The names of a program are those that were drawn, one after the other. -/
theorem inOrder_compileForms {params : Parameters} {forms : List Tree} {names : NameSource}
    {notes : List Note} {program : Tree} {p : Progress}
    (h : compileForms params forms ⟨names, notes⟩ = .ok program p) :
  ∃ drawn, InOrder names.next p.names.next drawn ∧ program.drawnNames.Perm drawn
    ∧ drawn.length = 4 + 3 * forms.length
  := by
  obtain ⟨start, n⟩ := names
  simp only [compileForms, compileReading, bind_eq_ok, naming_eq_ok, pure_eq_ok] at h
  obtain ⟨helpers, p₁, ⟨names, hhelpers, rfl⟩, ts, p₂, hts, program, p₃, ⟨names', hprogram, rfl⟩, h⟩
    := h
  obtain ⟨_, p₄, hnote, rfl, rfl⟩ := h
  rw [helperNames_eq] at hhelpers
  cases hhelpers
  rw [Tree.toProgram, Tree.naming_bind_eq_ok] at hprogram
  obtain ⟨es, names'', hes, hprogram⟩ := hprogram
  cases hprogram
  obtain ⟨horder, hlength, hcount⟩ := inOrder_compileDefinitions hts
  obtain ⟨flags, hflags, hflagCount, hperm⟩ := Tree.inOrder_toEntries hes
  rw [note_eq_ok hnote]
  refine ⟨_, ((inOrder_helpersAt n).append (horder.append hflags)), ?_, ?_⟩
  · rw [Tree.programOf, sorted_helpersAt, Tree.drawnNames]
    exact hperm.append_left _
  · rw [List.length_append, List.length_append, hlength, hflagCount, hcount]
    have hfour : ((helpersAt n).map Prod.snd).length = 4 := rfl
    omega

/-- **Fresh names keep apart, also as identifiers.** Names that are drawn one after the other from a
source whose numbers are not negative differ, and so do their identifiers, whatever the bases are.
In a program that is compiled with such a source, from any forms, there are four names of helpers and
three names for each form: those of the inner definition, of the continuation and of the flag. All
these names and their identifiers differ. -/
theorem nodup_drawn_names {names : NameSource} (h : 0 ≤ names.next) :
  (∀ bases, (names.freshAll bases).1.Nodup ∧ ((names.freshAll bases).1.map mangle).Nodup)
    ∧ ∀ params forms notes program p,
      compileForms params forms ⟨names, notes⟩ = .ok program p →
        program.drawnNames.length = 4 + 3 * forms.length ∧ program.drawnNames.Nodup
          ∧ (program.drawnNames.map mangle).Nodup
  := by
  constructor
  · intro bases
    have hnodup := (inOrder_freshAll bases names).nodup_map_mangle h
    exact ⟨hnodup.of_map, hnodup⟩
  · intro params forms notes program p hprogram
    obtain ⟨drawn, horder, hperm, hlength⟩ := inOrder_compileForms hprogram
    have hnodup := (hperm.map mangle).nodup_iff.mpr (horder.nodup_map_mangle h)
    exact ⟨hperm.length_eq.trans hlength, hnodup.of_map, hnodup⟩

/-- Definitions of which one has an empty name, and two have names with one identifier. -/
def unhandyForms : List Tree :=
  [.definition "" ["k__5"] (.var "k__5") none,
   .definition "a-b" [] (.application (.var "a_b") [.literal (.int 1)]) none,
   .definition "a_b" ["x"] (.abstraction ["k"] (.var "x")) none]

/-- The inner definitions of two functions with one identifier keep apart, and so do names that are
drawn on an empty base, on bases with one identifier, and on a base twice. -/
theorem nodup_drawn_names_unhandyForms :
  ∃ program, (compileForms {} unhandyForms).result (.startingAt 0) = .ok program
    ∧ mangle "a-b" = mangle "a_b" ∧ program.drawnNames.length = 13
    ∧ "a-b__6" ∈ program.drawnNames ∧ "a_b__8" ∈ program.drawnNames
    ∧ (program.drawnNames.map mangle).Nodup
    ∧ ((startingAt 0).freshAll ["", "a-b", "a_b", "a-b"]).1.map mangle
      = ["__0", "a_b__1", "a_b__2", "a_b__3"]
    ∧ (((startingAt 0).freshAll ["", "a-b", "a_b", "a-b"]).1.map mangle).Nodup
  := by
  have hresult : ((compileForms {} unhandyForms).result (.startingAt 0)).toOption.any
      (fun program => "a-b__6" ∈ program.drawnNames ∧ "a_b__8" ∈ program.drawnNames) := by
    decide +kernel
  have hident : mangle "a-b" = mangle "a_b"
      ∧ ((startingAt 0).freshAll ["", "a-b", "a_b", "a-b"]).1.map mangle
        = ["__0", "a_b__1", "a_b__2", "a_b__3"] := by
    decide +kernel
  obtain ⟨program, hprogram, hmem⟩ := exists_of_any hresult
  obtain ⟨hfirst, hsecond⟩ := of_decide_eq_true hmem
  obtain ⟨p, hp⟩ := result_eq_ok.mp hprogram
  obtain ⟨hfresh, hforms⟩ := @nodup_drawn_names (startingAt 0) (le_refl 0)
  obtain ⟨hlength, -, hnodup⟩ := hforms {} unhandyForms [] program p hp
  exact ⟨program, hprogram, hident.1, hlength, hfirst, hsecond, hnodup, hident.2, (hfresh _).2⟩

end Springboard
