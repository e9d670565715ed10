import Mathlib.Data.List.Dedup
import Springboard.Proofs.Preparation

/-!
# Functions that a loaded module keeps

The forms of a text have different names, but the functions of its module are defined under the
identifiers of these names, and different names can have one identifier. Then the later definition
replaces the earlier. Main statement: the namespace of a loaded module has one function for each
identifier, that of the last form which has it; so there is one function for each form just when the
identifiers of the names differ, as they do where the names are identifiers themselves.
-/

namespace Springboard

open NameSource

/-! ### Names that are identifiers -/

/-- An identifier that is not reserved. -/
def IsPlain (name : String) : Prop :=
  Text.isIdentifier name.toList ∧ name ∉ reservedWords

/-- A character that may stand in an identifier is spelled as itself. -/
theorem spelling_of_isContinue {c : Char} (h : Text.isContinue c) : spelling c = [c] := by
  unfold spelling
  split
  case h_11 => rfl
  all_goals exact absurd h (by decide +kernel)

/-- The characters of an identifier may stand in one. -/
theorem isContinue_of_isIdentifier {cs : List Char} (h : Text.isIdentifier cs) {c : Char}
    (hc : c ∈ cs) :
  Text.isContinue c
  := by
  cases cs with
  | nil => contradiction
  | cons first rest =>
    rw [Text.isIdentifier, Bool.and_eq_true, List.all_eq_true] at h
    rcases List.mem_cons.mp hc with rfl | hc
    · apply isContinue_of_isStart h.1
    · apply h.2 c hc

/-- A plain name is its own identifier. -/
theorem mangle_of_isPlain {name : String} (h : IsPlain name) : mangle name = name := by
  obtain ⟨hident, hreserved⟩ := h
  have hspelling : name.toList.flatMap spelling = name.toList := by
    apply flatMap_eq_self
    intro c hc
    apply spelling_of_isContinue
    apply isContinue_of_isIdentifier hident hc
  rw [mangle, hspelling, legalize, if_pos hident, String.ofList_toList, unreserve, if_neg]
  rw [List.contains_iff_mem]
  exact hreserved

/-- Different names have different identifiers just when no two of them share one. -/
theorem nodup_map_mangle_iff {names : List String} (h : names.Nodup) :
  (names.map mangle).Nodup ↔ ∀ x ∈ names, ∀ y ∈ names, mangle x = mangle y → x = y
  := by
  constructor
  · intro hidents x hx y hy
    apply List.inj_on_of_nodup_map hidents hx hy
  · intro hinjective
    apply h.map_on
    intro x hx y hy
    apply hinjective x hx y hy

/-- Different plain names have different identifiers. -/
theorem nodup_map_mangle_of_isPlain {names : List String} (h : names.Nodup)
    (hplain : ∀ x ∈ names, IsPlain x) :
  (names.map mangle).Nodup
  := by
  rw [nodup_map_mangle_iff h]
  intro x hx y hy heq
  rwa [mangle_of_isPlain (hplain x hx), mangle_of_isPlain (hplain y hy)] at heq

/-- The hexadecimal digits of a number may stand in an identifier. -/
theorem isContinue_of_mem_toDigits {n : Nat} {c : Char} (hc : c ∈ Nat.toDigits 16 n) :
  Text.isContinue c = true
  := by
  have hdigits : ∀ k < 16, Text.isContinue k.digitChar = true := by
    decide +kernel
  induction n using Nat.strongRecOn with
  | ind n ih =>
    rw [Nat.toDigits_eq_if (by decide)] at hc
    split at hc
    · rename_i hlt
      rw [List.mem_singleton.mp hc]
      exact hdigits n hlt
    · rename_i hge
      obtain hc | hc := List.mem_append.mp hc
      · exact ih (n / 16) (by omega) hc
      · rw [List.mem_singleton.mp hc]
        exact hdigits _ (Nat.mod_lt n (by decide))

/-- What a character is written as may stand in an identifier. -/
theorem isContinue_of_mem_codeSpelling {c d : Char} (hd : d ∈ codeSpelling c) :
  Text.isContinue d = true
  := by
  unfold codeSpelling at hd
  split at hd
  · rename_i hc
    rwa [List.mem_singleton.mp hd]
  · obtain rfl | hd := List.mem_cons.mp hd
    · decide +kernel
    · obtain rfl | hd := List.mem_cons.mp hd
      · decide +kernel
      · obtain hd | hd := List.mem_append.mp hd
        · rw [List.eq_of_mem_replicate hd]
          decide +kernel
        · exact isContinue_of_mem_toDigits hd

/-- Making an identifier of some characters succeeds. -/
theorem isIdentifier_legalize (cs : List Char) : Text.isIdentifier (legalize cs) = true := by
  unfold legalize
  split
  · assumption
  · dsimp only
    split
    · assumption
    · rw [Text.isIdentifier, isStart_lowLine, Bool.true_and, List.all_eq_true]
      intro d hd
      obtain ⟨c, -, hd⟩ := List.mem_flatMap.mp hd
      exact isContinue_of_mem_codeSpelling hd

/-- The identifier of a name is one that is not reserved. -/
theorem isPlain_mangle (name : String) : IsPlain (mangle name) := by
  have hident := isIdentifier_legalize (name.toList.flatMap spelling)
  have hwords : ∀ word ∈ reservedWords,
      Text.isIdentifier (word ++ "_").toList = true ∧ word ++ "_" ∉ reservedWords := by
    decide +kernel
  unfold mangle unreserve
  split
  · rename_i hreserved
    exact hwords _ (List.contains_iff_mem.mp hreserved)
  · rename_i hfree
    refine ⟨?_, fun hmem => hfree (List.contains_iff_mem.mpr hmem)⟩
    rwa [String.toList_ofList]

/-! ### What is emitted -/

/-- The piece is the definition of a function at the left margin. -/
def Piece.Defines (ident : String) (piece : Piece) : Prop :=
  ∃ (formals : String) (body : List String),
    piece = .lines (("def " ++ ident ++ "(" ++ formals ++ "):") :: body.map indent)

/-- An entry is emitted as a definition of its identifier. -/
theorem defines_of_emitPiece
    {d : Definition} {t : Tree} (h : IsEntryOf d t) {table table' : HelperTable} {piece : Piece}
    (hpiece : t.emitPiece table = .ok (piece, table')) :
  piece.Defines (mangle d.name)
  := by
  obtain ⟨k, flag, own, body, -, rfl⟩ := h
  rw [Tree.emitPiece] at hpiece
  simp only [Tree.name?, StateT.bind_eq_ok] at hpiece
  obtain ⟨identity, _, -, inner, _, -, makeFlag, _, -, trampoline, _, -, hpiece⟩ := hpiece
  cases hpiece
  exact ⟨_, _, rfl⟩

/-- Entries are emitted as definitions of their identifiers, one after the other. -/
theorem defines_of_emitPieces {Ds : List Definition} {es : List Tree}
    (h : List.Forall₂ IsEntryOf Ds es) {table table' : HelperTable} {pieces : List Piece}
    (hpieces : Tree.emitPieces es table = .ok (pieces, table')) :
  List.Forall₂ Piece.Defines (Ds.map fun d => mangle d.name) pieces
  := by
  induction h generalizing table pieces with
  | nil =>
    rw [Tree.emitPieces] at hpieces
    cases hpieces
    exact .nil
  | cons hfirst _ ih =>
    rw [Tree.emitPieces] at hpieces
    simp only [StateT.bind_eq_ok] at hpieces
    obtain ⟨first, _, hpiece, rest, _, hrest, hpieces⟩ := hpieces
    cases hpieces
    exact .cons (defines_of_emitPiece hfirst hpiece) (ih hrest)

/-- A program of entries is emitted as a module that defines their identifiers. -/
theorem defines_of_emitProgram {Ds : List Definition} {es : List Tree}
    (h : List.Forall₂ IsEntryOf Ds es) {helpers : List (String × String)} {source emitted : String}
    (hemitted : (Tree.programOf es helpers).emitProgram source = .ok emitted) :
  ∃ imports pieces, emitted = moduleText imports pieces
    ∧ List.Forall₂ Piece.Defines (Ds.map fun d => mangle d.name) pieces
  := by
  rw [Tree.programOf, Tree.emitProgram] at hemitted
  simp only [Except.bind_eq_ok] at hemitted
  obtain ⟨imports, -, pieces, hpieces, hemitted⟩ := hemitted
  cases hemitted
  refine ⟨imports, pieces, rfl, ?_⟩
  cases hrun : Tree.emitPieces es (sorted Tree.pairLe helpers) with
  | error e =>
    rw [StateT.run', hrun] at hpieces
    contradiction
  | ok r =>
    rw [StateT.run', hrun] at hpieces
    cases hpieces
    exact defines_of_emitPieces h hrun

namespace Machine

/-! ### What is bound -/

/-- Whether a value is a function at the top of a module. -/
def Value.isEntry : Value → Bool
  | .entry _ _ _ _ => true
  | _ => false

/-- The identifiers that are bound to functions at the top of a module. -/
def Namespace.functions (ns : Namespace) : List String :=
  (ns.filter fun b => b.2.isEntry).map Prod.fst

/-- Binding an identifier replaces the function that it was bound to. -/
theorem functions_define (ns : Namespace) (x : String) (v : Value) :
  (ns.define x v).functions
    = (if v.isEntry then [x] else []) ++ ns.functions.filter (· != x)
  := by
  have hrest : ((ns.filter fun b => b.1 != x).filter fun b => b.2.isEntry).map Prod.fst
      = ns.functions.filter (· != x) := by
    rw [Namespace.functions, List.filter_map, List.filter_comm]
    rfl
  rw [Namespace.define, Namespace.functions, List.filter_cons]
  cases hv : v.isEntry with
  | true => rw [if_pos rfl, List.map_cons, hrest, if_pos rfl, List.singleton_append]
  | false => rw [if_neg Bool.false_ne_true, hrest, if_neg Bool.false_ne_true, List.nil_append]

/-- Imports are no functions of the module, and every one of them is bound. -/
theorem bindImports_nil (imports : List (String × Helper)) :
  (bindImports imports []).functions = []
    ∧ ∀ ident ∈ imports.map Prod.fst, ((bindImports imports []).lookup ident).isSome
  := by
  induction imports using List.reverseRecOn with
  | nil => exact ⟨rfl, fun ident h => by contradiction⟩
  | append_singleton imports last ih =>
    obtain ⟨ident, helper⟩ := last
    have hstep : bindImports (imports ++ [(ident, helper)]) []
        = (bindImports imports []).define ident (.helper helper) := by
      apply List.foldl_concat
    obtain ⟨hfunctions, hbound⟩ := ih
    constructor
    · rw [hstep, functions_define, hfunctions]
      rfl
    · intro x hx
      rw [hstep, lookup_define]
      split
      · rfl
      · rename_i hne
        rw [List.map_append, List.mem_append] at hx
        rcases hx with hx | hx
        · apply hbound x hx
        · exact absurd (List.mem_singleton.mp hx) hne

/-- What binding some entries does to a namespace: an entry is bound to its identifier unless a
later one has the same, and the functions are those from before and the entries. -/
structure Entered (home : Nat) (entries : List Entry) (ns ns' : Namespace) : Prop where
  unnamed : ∀ x, x ∉ entries.map Entry.name → ns'.lookup x = ns.lookup x
  last : ∀ before e after, entries = before ++ e :: after → e.name ∉ after.map Entry.name →
    ∃ id fallback, ns'.lookup e.name = some (.entry id home e fallback)
  functions : ∀ x, x ∈ ns'.functions ↔ x ∈ ns.functions ∨ x ∈ entries.map Entry.name
  nodup : ns.functions.Nodup → ns'.functions.Nodup

/-- One entry is bound, and then the others. -/
theorem Entered.cons
    {home : Nat} {e : Entry} {entries : List Entry} {ns ns' : Namespace} {id : Nat} {fallback : Value}
    (h : Entered home entries (ns.define e.name (.entry id home e fallback)) ns') :
  Entered home (e :: entries) ns ns'
  := by
  have hfunctions : (ns.define e.name (.entry id home e fallback)).functions
      = e.name :: ns.functions.filter (· != e.name) := by
    apply functions_define
  constructor
  · intro x hx
    obtain ⟨hne, hx⟩ := List.ne_and_not_mem_of_not_mem_cons hx
    rw [h.unnamed x hx, lookup_define, if_neg hne]
  · intro before e' after hsplit hafter
    cases before with
    | nil =>
      cases hsplit
      refine ⟨id, fallback, ?_⟩
      rw [h.unnamed e.name hafter, lookup_define, if_pos rfl]
    | cons first before =>
      cases hsplit
      apply h.last before e' after rfl hafter
  · intro x
    rw [h.functions, hfunctions, List.map_cons, List.mem_cons, List.mem_cons, List.mem_filter,
      bne_iff_ne]
    tauto
  · intro hnodup
    apply h.nodup
    rw [hfunctions, List.nodup_cons]
    constructor
    · intro hmem
      exact absurd rfl (bne_iff_ne.mp (List.mem_filter.mp hmem).2)
    · apply hnodup.filter

/-- Entries are bound one after the other. -/
theorem exists_entered {home : Nat} {identity : String} (entries : List Entry) {ns : Namespace}
    (hns : (ns.lookup identity).isSome) (st : State) :
  ∃ ns' st', bindEntries home identity entries ns st = .ok ns' st' ∧ Entered home entries ns ns'
  := by
  induction entries generalizing ns st with
  | nil =>
    refine ⟨ns, st, rfl, ?_⟩
    constructor
    · intro x _
      rfl
    · intro before e after hsplit
      cases before <;> contradiction
    · intro x
      rw [List.map_nil, or_iff_left List.not_mem_nil]
    · intro hnodup
      exact hnodup
  | cons e entries ih =>
    obtain ⟨fallback, hfallback⟩ := Option.isSome_iff_exists.mp hns
    have hlookup : lookup ns [] identity st = .ok fallback st := by
      apply lookup_eq_ok.mpr
      exact ⟨hfallback, rfl⟩
    have hidentity :
        ((ns.define e.name (.entry st.made home e fallback)).lookup identity).isSome := by
      rw [lookup_define]
      split
      · rfl
      · exact hns
    obtain ⟨ns', st', hbind, hentered⟩ := ih hidentity ⟨st.flags, st.made + 1⟩
    refine ⟨ns', st', ?_, hentered.cons⟩
    rw [bindEntries, bind_of_ok hlookup]
    exact hbind

/-- The entries of a module have the identifiers of the definitions that it was made of, and what an
entry needs is imported. -/
theorem names_of_ofProgram
    {Ds : List Definition} {es : List Tree} (h : List.Forall₂ IsEntryOf Ds es) {n : Int} {m : Module}
    (hm : Module.ofProgram (Tree.programOf es (helpersAt n)) = .ok m) :
  m.entries.map Entry.name = Ds.map (fun d => mangle d.name) ∧ m.identity ∈ m.imports.map Prod.fst
  := by
  have hmodule := Session.ofProgram_eq_ok hm
  rw [Tree.programOf, sorted_helpersAt] at hmodule
  simp only [Module.ofProgram?, importsOf?_helpersAt, Option.bind_eq_bind, Option.bind_eq_some_iff]
    at hmodule
  obtain ⟨imports, himports, identity, hidentity, entries, hentries, hmodule⟩ := hmodule
  cases himports
  cases hidentity
  cases hmodule
  refine ⟨?_, ?_⟩
  · clear hm
    induction h generalizing entries with
    | nil =>
      cases hentries
      rfl
    | cons hfirst _ ih =>
      simp only [List.mapM_cons, Option.bind_eq_bind, Option.bind_eq_some_iff] at hentries
      obtain ⟨e, he, rest, hrest, hentries⟩ := hentries
      cases hentries
      rw [List.map_cons, List.map_cons, ih rest hrest, name_of_isEntryOf hfirst he]
  · simp [importsAt]

/-- What a namespace keeps of the entries of a module: one function for each identifier, that of the
last entry which has it. -/
structure Module.KeptBy (m : Module) (ns : Namespace) : Prop where
  functions : ∀ x, x ∈ ns.functions ↔ x ∈ m.entries.map Entry.name
  nodup : ns.functions.Nodup
  last : ∀ before e after, m.entries = before ++ e :: after → e.name ∉ after.map Entry.name →
    ∃ id fallback, ns.lookup e.name = some (.entry id 0 e fallback)

/-- A module whose imports have what its entries need is loaded, and the last entries are kept. -/
theorem exists_load {m : Module} (h : m.identity ∈ m.imports.map Prod.fst) :
  ∃ ns st, m.load 0 [] .start = .ok ns st ∧ m.KeptBy ns
  := by
  obtain ⟨hfunctions, hbound⟩ := bindImports_nil m.imports
  obtain ⟨ns, st, hload, hentered⟩ := exists_entered m.entries (hbound m.identity h) .start
  refine ⟨ns, st, hload, ?_, ?_, hentered.last⟩
  · intro x
    rw [hentered.functions, hfunctions, or_iff_right List.not_mem_nil]
  · apply hentered.nodup
    rw [hfunctions]
    exact .nil

/-- As many functions are kept as there are entries just when the entries have different
identifiers. -/
theorem Module.KeptBy.length_iff {m : Module} {ns : Namespace} (h : m.KeptBy ns) :
  ns.functions.length = m.entries.length ↔ (m.entries.map Entry.name).Nodup
  := by
  have hperm : ns.functions.Perm (m.entries.map Entry.name).dedup := by
    rw [List.perm_ext_iff_of_nodup h.nodup (List.nodup_dedup _)]
    intro x
    rw [h.functions, List.mem_dedup]
  rw [hperm.length_eq, ← List.length_map Entry.name, ← List.dedup_eq_self]
  constructor
  · apply (List.dedup_sublist _).eq_of_length
  · intro heq
    rw [heq]

end Machine

/-! ### Texts -/

/-- The names of the forms of a text that is compiled are different, and its program consists of
their entries. -/
theorem names_of_compileText {entry : String} {runtime : Tree} {text : String} {names : NameSource}
    {program : Tree} (h : (compileText ⟨.text entry, runtime⟩ text).result names = .ok program) :
  ∃ forms es, Tree.readAll text = .ok forms ∧ program = Tree.programOf es (helpersAt names.next)
    ∧ List.Forall₂ IsEntryOf (forms.map (Definition.ofForm entry)) es
    ∧ ((forms.map (Definition.ofForm entry)).map Definition.name).Nodup
  := by
  obtain ⟨forms, es, hread, hprogram, hentries⟩ := entries_of_compileText h
  obtain ⟨start, n⟩ := names
  obtain ⟨-, hpairwise, -⟩ := stages_of_compileText rfl hread h
  refine ⟨forms, es, hread, hprogram, ?_, ?_⟩
  · rwa [List.forall₂_map_left_iff]
  · rwa [List.Nodup, List.pairwise_map]

/-- **Of the forms whose names have one identifier, the last is kept.** The forms of a text that is
compiled, with any name for the entry and any source of names, have different names. The emitted
module defines a function for each of them, under the identifier of its name. When the module is
loaded, the namespace has one function for each identifier, that of the last form which has it; so
it has as many functions as there are forms just when no two of the names share an identifier. Names
that are identifiers, and not reserved, share none. -/
theorem load_keeps_last
    (entry : String) (runtime : Tree) (text : String) (names : NameSource) (program : Tree)
    (h : (compileText ⟨.text entry, runtime⟩ text).result names = .ok program) :
  ∃ forms tops, Tree.readAll text = .ok forms
    ∧ tops = forms.map (fun form => (Definition.ofForm entry form).name) ∧ tops.Nodup
    ∧ (∀ source emitted, program.emitProgram source = .ok emitted →
      ∃ imports pieces, emitted = moduleText imports pieces
        ∧ List.Forall₂ Piece.Defines (tops.map mangle) pieces)
    ∧ (∀ m, Machine.Module.ofProgram program = .ok m →
      m.entries.map Machine.Entry.name = tops.map mangle
        ∧ ∃ ns st, m.load 0 [] .start = .ok ns st ∧ m.KeptBy ns
          ∧ (ns.functions.length = forms.length
            ↔ ∀ x ∈ tops, ∀ y ∈ tops, mangle x = mangle y → x = y))
    ∧ ((∀ x ∈ tops, IsPlain x) → (tops.map mangle).Nodup)
  := by
  obtain ⟨forms, es, hread, rfl, hentries, hnodup⟩ := names_of_compileText h
  have htops : (forms.map (Definition.ofForm entry)).map Definition.name
      = forms.map fun form => (Definition.ofForm entry form).name := by
    apply List.map_map
  have hidents : (forms.map (Definition.ofForm entry)).map (fun d => mangle d.name)
      = (forms.map fun form => (Definition.ofForm entry form).name).map mangle := by
    rw [← htops, List.map_map, List.map_map, List.map_map]
    rfl
  rw [htops] at hnodup
  refine ⟨forms, _, hread, rfl, hnodup, ?_, ?_, ?_⟩
  · intro source emitted hemitted
    rw [← hidents]
    apply defines_of_emitProgram hentries hemitted
  · intro m hm
    obtain ⟨hnames, hidentity⟩ := Machine.names_of_ofProgram hentries hm
    obtain ⟨ns, st, hload, hkept⟩ := Machine.exists_load hidentity
    rw [hidents] at hnames
    refine ⟨hnames, ns, st, hload, hkept, ?_⟩
    have hlength : m.entries.length = forms.length := by
      rw [← List.length_map Machine.Entry.name, hnames, List.length_map, List.length_map]
    rw [← hlength, hkept.length_iff, hnames, nodup_map_mangle_iff hnodup]
  · apply nodup_map_mangle_of_isPlain hnodup

/-- A text of two definitions whose names have one identifier. -/
def sharedIdentText : String :=
  "(defn a-b () 1) (defn a_b () 2)"

/-- Of two definitions that share an identifier only one is kept. -/
theorem load_keeps_last_sharedIdentText :
  ∃ program forms m ns st, (compileText {} sharedIdentText).result .default = .ok program
    ∧ Tree.readAll sharedIdentText = .ok forms ∧ Machine.Module.ofProgram program = .ok m
    ∧ m.load 0 [] .start = .ok ns st ∧ m.KeptBy ns ∧ ns.functions.length ≠ forms.length
  := by
  have hprogram : ((compileText {} sharedIdentText).result .default).toOption.any
      (fun program => (Machine.Module.ofProgram program).isOk) := by
    decide +kernel
  have hread : (Tree.readAll sharedIdentText).toOption.any
      (fun forms =>
        forms.map (fun form => (Definition.ofForm "main" form).name) = ["a-b", "a_b"]) := by
    decide +kernel
  obtain ⟨program, hprogram, hmodule⟩ := exists_of_any hprogram
  obtain ⟨m, hm⟩ := exists_of_isOk hmodule
  obtain ⟨forms', hforms', hnames⟩ := exists_of_any hread
  obtain ⟨forms, tops, hforms, rfl, -, -, hload, -⟩ := load_keeps_last "main" _ _ _ program hprogram
  obtain ⟨-, ns, st, hns, hkept, hlength⟩ := hload m hm
  refine ⟨program, forms, m, ns, st, hprogram, hforms, hm, hns, hkept, ?_⟩
  rw [hforms] at hforms'
  cases hforms'
  rw [Ne, hlength, of_decide_eq_true hnames]
  decide +kernel

end Springboard
