import Springboard.Proofs.Failure
import Springboard.Session

/-!
# Lines that are ready to be run

A line is prepared before anything is bound: it is read, compiled, emitted and made a module. What
comes out does not depend on the notes of the session. The module of a line imports the helpers
under the same identifiers as that of any other line, and its entries are what its forms are
compiled to. Loading it binds the helpers, and each identifier to the entry of its last definition.
-/

namespace Springboard

open NameSource Compile

/-! ### Notes do not matter -/

/-- The outcome of a compilation depends on its names alone, not on the notes taken before. -/
def Compile.IgnoresNotes {α : Type} (c : Compile α) : Prop :=
  ∀ names notes notes',
    (∀ a p, c ⟨names, notes⟩ = .ok a p → ∃ q, c ⟨names, notes'⟩ = .ok a q ∧ q.names = p.names)
      ∧ ∀ e p, c ⟨names, notes⟩ = .error e p → ∃ q, c ⟨names, notes'⟩ = .error e q

namespace Compile.IgnoresNotes

/-- A pure step ignores the notes. -/
theorem pure {α : Type} (a : α) : (pure a : Compile α).IgnoresNotes := by
  intro names notes notes'
  constructor
  · intro b p h
    cases h
    exact ⟨_, rfl, rfl⟩
  · intro e p h
    contradiction

/-- A failing step ignores the notes. -/
theorem throw {α : Type} (e : Error) : (throw e : Compile α).IgnoresNotes := by
  intro names notes notes'
  constructor
  · intro a p h
    contradiction
  · intro e' p h
    cases h
    exact ⟨_, rfl⟩

/-- A sequence ignores the notes if its parts do. -/
theorem bind {α β : Type} {c : Compile α} {f : α → Compile β} (hc : c.IgnoresNotes)
    (hf : ∀ a, (f a).IgnoresNotes) :
  (c >>= f).IgnoresNotes
  := by
  intro names notes notes'
  obtain ⟨hok, herror⟩ := hc names notes notes'
  cases hfirst : c ⟨names, notes⟩ with
  | ok a p =>
    obtain ⟨q, hq, hnames⟩ := hok a p hfirst
    obtain ⟨names', notes₁⟩ := p
    obtain ⟨names'', notes₂⟩ := q
    cases hnames
    rw [bind_of_ok hfirst, bind_of_ok hq]
    apply hf
  | error e p =>
    obtain ⟨q, hq⟩ := herror e p hfirst
    rw [bind_of_error hfirst, bind_of_error hq]
    constructor
    · intro a p' h
      contradiction
    · intro e' p' h
      cases h
      exact ⟨q, rfl⟩

/-- Taking a note ignores those taken before. -/
theorem note (n : Note) : (note n).IgnoresNotes := by
  intro names notes notes'
  constructor
  · intro a p h
    cases h
    exact ⟨_, rfl, rfl⟩
  · intro e p h
    contradiction

/-- A step that may fail ignores the notes. -/
theorem attempt {α : Type} (x : Except Error α) : (attempt x).IgnoresNotes := by
  cases x with
  | ok a => exact pure a
  | error e => exact throw e

/-- A step that draws names ignores the notes. -/
theorem naming {α : Type} (step : Naming α) : (naming step).IgnoresNotes := by
  intro names notes notes'
  constructor
  · intro a p h
    obtain ⟨names', hstep, rfl⟩ := naming_eq_ok.mp h
    exact ⟨_, naming_eq_ok.mpr ⟨names', hstep, rfl⟩, rfl⟩
  · intro e p h
    cases hstep : step names with
    | ok r =>
      obtain ⟨a, names'⟩ := r
      have hok : Compile.naming step ⟨names, notes⟩ = .ok a ⟨names', notes⟩ :=
        naming_eq_ok.mpr ⟨names', hstep, rfl⟩
      rw [hok] at h
      contradiction
    | error e' =>
      have hfirst : Compile.naming step ⟨names, notes⟩ = .error e' ⟨names, notes⟩ :=
        naming_of_error hstep
      rw [hfirst] at h
      cases h
      exact ⟨_, naming_of_error hstep⟩

/-- Compiling a definition ignores the notes. -/
theorem compileDefinition (ak : String) (t : Tree) : (compileDefinition ak t).IgnoresNotes := by
  apply bind (naming _)
  intro converted
  apply bind (note _)
  intro _
  apply bind (attempt _)
  intro abstracted
  apply bind (note _)
  intro _
  apply bind (attempt _)
  intro suspended
  apply bind (note _)
  intro _
  apply pure

/-- Compiling definitions ignores the notes. -/
theorem compileDefinitions (entry : Tree) (ak : String) (seen : List String) (forms : List Tree) :
  (compileDefinitions entry ak seen forms).IgnoresNotes
  := by
  induction forms generalizing seen with
  | nil => apply pure
  | cons form forms ih =>
    apply bind (attempt _)
    intro defn
    dsimp only
    split
    on_goal 1 =>
      apply bind (throw _)
      intro _
    all_goals
      apply bind (note _)
      intro _
      apply bind (compileDefinition _ _)
      intro first
      apply bind (ih _)
      intro rest
      apply pure

/-- Compiling forms ignores the notes. -/
theorem compileForms (params : Parameters) (forms : List Tree) :
  (compileForms params forms).IgnoresNotes
  := by
  apply bind (naming _)
  intro helpers
  apply bind (compileDefinitions _ _ _ _)
  intro definitions
  apply bind (naming _)
  intro program
  apply bind (note _)
  intro _
  apply pure

end Compile.IgnoresNotes

/-- Notes taken before do not change the result of a compilation. -/
theorem Compile.IgnoresNotes.result {α : Type} {c : Compile α} (h : c.IgnoresNotes)
    (names : NameSource) (notes : List Note) :
  (∀ a, c.result names = .ok a → ∃ p, c ⟨names, notes⟩ = .ok a p)
    ∧ ∀ e, c.result names = .error e → ∃ p, c ⟨names, notes⟩ = .error e p
  := by
  obtain ⟨hok, herror⟩ := h names [] notes
  rw [Compile.result, EStateM.run]
  cases hfirst : c ⟨names, []⟩ with
  | ok a p =>
    constructor
    · intro b hb
      cases hb
      obtain ⟨q, hq, -⟩ := hok a p hfirst
      exact ⟨q, hq⟩
    · intro e he
      contradiction
  | error e p =>
    constructor
    · intro b hb
      contradiction
    · intro e' he
      cases he
      exact herror e p hfirst

/-- The errors of a sequence of steps that may fail. -/
theorem Except.bind_eq_error {ε α β : Type} {x : Except ε α} {f : α → Except ε β} {e : ε} :
  (x >>= f) = .error e ↔ x = .error e ∨ ∃ a, x = .ok a ∧ f a = .error e
  := by
  cases x with
  | error e' => simp [bind, Except.bind]
  | ok a => simp [bind, Except.bind]

/-! ### Compiled lines -/

/-- The definition is compiled to the entry, with some numbers for the names that are drawn. -/
def Definition.CompilesTo (d : Definition) (e : Machine.Entry) : Prop :=
  ∃ n f t p tree names, compileDefinition (applyKName 1) d.toTree ⟨⟨1, n⟩, []⟩ = .ok t p
    ∧ t.toEntry ⟨1, f⟩ = .ok (tree, names) ∧ Machine.Entry.ofTree? (helpersAt 1) tree = some e

/-- A tree without definitions is also one where definitions may stand inside others. -/
theorem Surface.weaken {t : Tree} (h : Surface false t) : Surface true t := by
  induction h with
  | literal value => exact .literal value
  | var x => exact .var x
  | operation hcount _ ih => exact .operation hcount ih
  | trivialConditional htrivial _ _ _ ihtest ihconseq ihalt =>
    exact .trivialConditional htrivial ihtest ihconseq ihalt
  | seriousConditional _ _ _ ihtest ihconseq ihalt =>
    exact .seriousConditional ihtest ihconseq ihalt
  | abstraction params _ ih => exact .abstraction params ih
  | definition name params _ _ ih => exact .definition name params rfl ih
  | application _ _ ihrator ihrands => exact .application ihrator ihrands

/-- An entry has the identifier of its definition. -/
theorem name_of_isEntryOf {d : Definition} {tree : Tree} (h : IsEntryOf d tree)
    {helpers : List (String × String)} {e : Machine.Entry}
    (he : Machine.Entry.ofTree? helpers tree = some e) :
  e.name = mangle d.name
  := by
  obtain ⟨k, flag, own, body, -, rfl⟩ := h
  simp only [Machine.Entry.ofTree?, Option.bind_eq_bind, Option.bind_eq_some_iff] at he
  obtain ⟨makeFlag, -, trampoline, -, code, -, he⟩ := he
  cases he
  rfl

/-- Converted definitions that become entries are compiled to them. -/
theorem compilesTo_of_entries {ps : List (Definition × Int)}
    (hps : ∀ p ∈ ps, Surface false p.1.body)
    {ts es : List Tree} {f : Int} {names : NameSource} {entries : List Machine.Entry}
    (hts : Tree.suspendAll (ps.map fun p => p.1.threaded (applyKName 1) p.2) = .ok ts)
    (hes : Tree.toEntries ts ⟨1, f⟩ = .ok (es, names))
    (hentries : es.mapM (Machine.Entry.ofTree? (helpersAt 1)) = some entries) :
  List.Forall₂ (fun p e => p.1.CompilesTo e ∧ e.name = mangle p.1.name) ps entries
  := by
  induction ps generalizing ts es f names entries with
  | nil =>
    cases hts
    cases hes
    cases hentries
    exact .nil
  | cons p ps ih =>
    obtain ⟨hp, hps⟩ := List.forall_mem_cons.mp hps
    simp only [List.map_cons, Tree.suspendAll, Except.bind_eq_ok] at hts
    obtain ⟨t, ht, ts, hts, h⟩ := hts
    cases h
    obtain ⟨t', ht', hentry⟩ := exists_entryOf (applyKName 1) hp
    rw [ht] at ht'
    cases ht'
    obtain ⟨tree, htree, hentryOf⟩ := hentry 1 f
    rw [Tree.toEntries, Tree.naming_bind htree, Tree.naming_bind_eq_ok] at hes
    obtain ⟨es, names', hes, h⟩ := hes
    cases h
    simp only [List.mapM_cons, Option.bind_eq_bind, Option.bind_eq_some_iff] at hentries
    obtain ⟨e, he, entries, hentries, h⟩ := hentries
    cases h
    refine .cons ⟨?_, name_of_isEntryOf hentryOf he⟩ (ih hps hts hes hentries)
    obtain ⟨-, t', p', ht'⟩ | ⟨hholds, -⟩ :=
      compileDefinition_cases (applyKName 1) hp.weaken ⟨⟨1, p.2⟩, []⟩
    · obtain ⟨-, hsuspend, -⟩ := of_compileDefinition hp.weaken ht'
      rw [ht] at hsuspend
      cases hsuspend
      exact ⟨p.2, f, t, p', tree, _, ht', htree, he⟩
    · rw [hp.holdsDefinition_eq_false] at hholds
      contradiction

namespace Session

/-- What a line is made into: its forms, and the module that they are compiled to. -/
structure Batch where
  forms : List Tree
  compiled : Machine.Module

/-- Makes a line ready to be run: all that can be refused about it is refused here. A line without
forms is a module without imports. -/
def prepare (line : String) : Except Error Batch := do
  let forms ← Tree.readAll line
  if forms.isEmpty then return ⟨[], ⟨[], "", []⟩⟩
  let program ← (compileForms { entry := .text lineEntry } forms).result .default
  let _ ← program.emitProgram defaultModule
  let m ← Machine.Module.ofProgram program
  return ⟨forms, m⟩

/-- The definitions that the forms of a line stand for, with the entries they are compiled to. -/
def Batch.defined (b : Batch) : List (Definition × Machine.Entry) :=
  (b.forms.map (Definition.ofForm lineEntry)).zip b.compiled.entries

/-- Without forms nothing is defined. -/
theorem Batch.defined_eq_nil {b : Batch} (h : b.forms = []) : b.defined = [] := by
  rw [Batch.defined, h, List.map_nil, List.zip_nil_left]

/-- The identifiers of the helpers in the modules of lines. -/
def lineHelpers : List (String × Helper) :=
  [("apply_k__1", .applyK), ("flag__2", .makeFlag), ("identity__3", .identity),
    ("trampoline__4", .trampoline)]

/-- The modules of lines import the helpers. -/
theorem importsAt_one : Machine.importsAt 1 = lineHelpers := by
  decide +kernel

/-- A line that is ready has been read; if it has forms, a module was made of them. -/
theorem of_prepare {line : String} {b : Batch} (h : prepare line = .ok b) :
  Tree.readAll line = .ok b.forms
    ∧ (b.forms = [] ∧ b.compiled = ⟨[], "", []⟩
      ∨ b.forms ≠ [] ∧ ∃ program source,
        (compileForms { entry := .text lineEntry } b.forms).result .default = .ok program
          ∧ program.emitProgram defaultModule = .ok source
          ∧ Machine.Module.ofProgram program = .ok b.compiled)
  := by
  simp only [prepare, Except.bind_eq_ok] at h
  obtain ⟨forms, hread, h⟩ := h
  cases forms with
  | nil =>
    cases h
    exact ⟨hread, .inl ⟨rfl, rfl⟩⟩
  | cons form forms =>
    simp only [List.isEmpty_cons, Bool.false_eq_true, if_false, Except.bind_eq_ok] at h
    obtain ⟨program, hprogram, source, hsource, m, hm, h⟩ := h
    cases h
    exact ⟨hread, .inr ⟨List.cons_ne_nil _ _, program, source, hprogram, hsource, hm⟩⟩

/-- A program that can be loaded has a module. -/
theorem ofProgram_eq_ok {program : Tree} {m : Machine.Module}
    (h : Machine.Module.ofProgram program = .ok m) :
  Machine.Module.ofProgram? program = some m
  := by
  unfold Machine.Module.ofProgram at h
  split at h
  · rename_i m' hm'
    split at h
    · cases h
      exact hm'
    · contradiction
  · contradiction

/-- The module of a text imports the helpers, and its entries are what the forms are compiled to. -/
theorem compiled_of_compileText {entry : String} {runtime : Tree} {text : String}
    {forms : List Tree} (hread : Tree.readAll text = .ok forms) {program : Tree}
    (h : (compileText ⟨.text entry, runtime⟩ text).result .default = .ok program)
    {m : Machine.Module} (hm : Machine.Module.ofProgram program = .ok m) :
  m.imports = lineHelpers ∧ m.identity = "identity__3"
    ∧ List.Forall₂ (fun d e => d.CompilesTo e ∧ e.name = mangle d.name)
      (forms.map (Definition.ofForm entry)) m.entries
  := by
  obtain ⟨hsurface, -, ts, names, hts, htoProgram⟩ := stages_of_compileText rfl hread h
  rw [Tree.toProgram, Tree.naming_bind_eq_ok] at htoProgram
  obtain ⟨es, names', hes, htoProgram⟩ := htoProgram
  cases htoProgram
  have hmodule := ofProgram_eq_ok hm
  rw [Tree.programOf, sorted_helpersAt] at hmodule
  simp only [Machine.Module.ofProgram?, Machine.importsOf?_helpersAt, Option.bind_eq_bind,
    Option.bind_eq_some_iff] at hmodule
  obtain ⟨imports, himports, identity, hidentity, entries, hentries, hmodule⟩ := hmodule
  cases himports
  cases hidentity
  rw [← Option.some.inj hmodule]
  have hidentity : mangle (nameOf Helper.identity.role (1 + 2)) = "identity__3" := by
    decide +kernel
  dsimp only
  refine ⟨importsAt_one, hidentity, ?_⟩
  have hplaced := compilesTo_of_entries
    (fun p hp => hsurface p.1 (Definition.number_of_mem_numbered hp).1) hts hes hentries
  rw [← Definition.map_fst_numbered (applyKName 1) (forms.map _) (1 + 4),
    List.forall₂_map_left_iff]
  exact hplaced

/-- The module of a line with forms imports the helpers, and its entries are what the forms are
compiled to. -/
theorem compiled_of_prepare {line : String} {b : Batch} (h : prepare line = .ok b)
    (hforms : b.forms ≠ []) :
  b.compiled.imports = lineHelpers ∧ b.compiled.identity = "identity__3"
    ∧ List.Forall₂ (fun d e => d.CompilesTo e ∧ e.name = mangle d.name)
      (b.forms.map (Definition.ofForm lineEntry)) b.compiled.entries
  := by
  obtain ⟨hread, ⟨hnil, -⟩ | ⟨-, program, source, hprogram, -, hmodule⟩⟩ := of_prepare h
  · contradiction
  obtain ⟨p, hp⟩ := result_eq_ok.mp hprogram
  have hresult : (compileText { entry := .text lineEntry } line).result .default = .ok program :=
    result_eq_ok.mpr ⟨p, (bind_of_ok (attempt_eq_ok.mpr ⟨hread, rfl⟩)).trans hp⟩
  exact compiled_of_compileText hread hresult hmodule

/-! ### Loading -/

/-- The last definition of an identifier. -/
def latest (x : String) (defined : List (Definition × Machine.Entry)) :
    Option (Definition × Machine.Entry) :=
  defined.reverse.find? fun p => mangle p.1.name == x

/-- The last definition of an identifier has it, and is one of the definitions. -/
theorem of_latest {x : String} {defined : List (Definition × Machine.Entry)}
    {p : Definition × Machine.Entry} (h : latest x defined = some p) :
  p ∈ defined ∧ mangle p.1.name = x
  := by
  have hmem := List.mem_of_find?_eq_some h
  have hname := List.find?_some h
  exact ⟨List.mem_reverse.mp hmem, beq_iff_eq.mp hname⟩

/-- Of some definitions and later ones, the later count. -/
theorem latest_append (x : String) (ds ds' : List (Definition × Machine.Entry)) :
  latest x (ds ++ ds') = (latest x ds').or (latest x ds)
  := by
  rw [latest, List.reverse_append, List.find?_append]
  rfl

/-- A definition counts if the later ones have other identifiers. -/
theorem latest_cons (x : String) (p : Definition × Machine.Entry)
    (ds : List (Definition × Machine.Entry)) :
  latest x (p :: ds) = (latest x ds).or (if mangle p.1.name = x then some p else none)
  := by
  have hlast : latest x [p] = if mangle p.1.name = x then some p else none := by
    rw [latest, List.reverse_singleton, List.find?_singleton]
    simp only [beq_iff_eq]
  rw [← hlast]
  exact latest_append x [p] ds

/-- An identifier without a last definition has none. -/
theorem latest_eq_none {x : String} {defined : List (Definition × Machine.Entry)} :
  latest x defined = none ↔ ∀ p ∈ defined, mangle p.1.name ≠ x
  := by
  simp [latest]

/-- The value of an identifier is the entry of its last definition, or if there is none, the value
given otherwise. -/
structure HasLatest (x : String) (defined : List (Definition × Machine.Entry))
    (otherwise value : Option Machine.Value) : Prop where
  of_some : ∀ p, latest x defined = some p →
    ∃ id, value = some (.entry id 0 p.2 (.helper .identity))
  of_none : latest x defined = none → value = otherwise

namespace HasLatest

/-- Without definitions a value stays as it is. -/
theorem nil (x : String) (value : Option Machine.Value) : HasLatest x [] value value := by
  constructor
  · intro p hp
    contradiction
  · intro _
    rfl

/-- Later definitions are made on top of those before. -/
theorem append {x : String} {ds ds' : List (Definition × Machine.Entry)}
    {otherwise value value' : Option Machine.Value} (h : HasLatest x ds otherwise value)
    (h' : HasLatest x ds' value value') :
  HasLatest x (ds ++ ds') otherwise value'
  := by
  constructor
  · intro p hp
    rw [latest_append] at hp
    cases hlater : latest x ds' with
    | some q =>
      rw [hlater] at hp
      cases hp
      exact h'.of_some p hlater
    | none =>
      rw [hlater] at hp
      rw [h'.of_none hlater]
      exact h.of_some p hp
  · intro hnone
    rw [latest_append, Option.or_eq_none_iff] at hnone
    rw [h'.of_none hnone.1, h.of_none hnone.2]

/-- An entry that is bound to its name is its latest. -/
theorem define {p : Definition × Machine.Entry} (hname : p.2.name = mangle p.1.name) (id : Nat)
    (ns : Machine.Namespace) (x : String) :
  HasLatest x [p] (ns.lookup x)
    ((ns.define p.2.name (.entry id 0 p.2 (.helper .identity))).lookup x)
  := by
  rw [Machine.lookup_define, hname]
  constructor
  · intro q hq
    obtain ⟨hmem, heq⟩ := of_latest hq
    rw [List.mem_singleton] at hmem
    subst hmem
    rw [if_pos heq.symm]
    exact ⟨id, rfl⟩
  · intro hnone
    rw [if_neg (latest_eq_none.mp hnone p List.mem_cons_self).symm]

end HasLatest

/-- Entries are bound one after the other, so that each identifier has the entry of its last
definition. -/
theorem bindEntries_latest
    {identity : String} {ds : List (Definition × Machine.Entry)}
    (hnames : ∀ p ∈ ds, p.2.name = mangle p.1.name ∧ p.2.name ≠ identity) {ns : Machine.Namespace}
    (hns : ns.lookup identity = some (.helper .identity)) (st : Machine.State) :
  ∃ ns' st', Machine.bindEntries 0 identity (ds.map Prod.snd) ns st = .ok ns' st'
    ∧ ∀ x, HasLatest x ds (ns.lookup x) (ns'.lookup x)
  := by
  induction ds generalizing ns st with
  | nil => exact ⟨ns, st, rfl, fun x => .nil x _⟩
  | cons p ds ih =>
    obtain ⟨⟨hname, hne⟩, hnames⟩ := List.forall_mem_cons.mp hnames
    have hdefine := HasLatest.define hname st.made ns
    have hidentity : (ns.define p.2.name (.entry st.made 0 p.2 (.helper .identity))).lookup identity
        = some (.helper .identity) := by
      rw [Machine.lookup_define, if_neg hne.symm, hns]
    obtain ⟨ns', st', hbind, hlatest⟩ := ih hnames hidentity ⟨st.flags, st.made + 1⟩
    refine ⟨ns', st', ?_, fun x => (hdefine x).append (hlatest x)⟩
    have hlookup : Machine.lookup ns [] identity st = .ok (.helper .identity) st :=
      Machine.lookup_eq_ok.mpr ⟨hns, rfl⟩
    rw [List.map_cons, Machine.bindEntries, bind_of_ok hlookup]
    exact hbind

/-- The identifiers that a session needs for itself. -/
def reserved : List String :=
  lastName :: lineHelpers.map Prod.fst

/-- No definition of a line has an identifier that the session needs for itself. -/
def IsRespectful (line : String) : Prop :=
  ∀ forms, Tree.readAll line = .ok forms → ∀ t ∈ forms, t.isDefinition →
    mangle (Definition.ofForm lineEntry t).name ∉ reserved

instance (line : String) : Decidable (IsRespectful line) :=
  match hread : Tree.readAll line with
  | .ok forms =>
    decidable_of_iff
      (∀ t ∈ forms, t.isDefinition → mangle (Definition.ofForm lineEntry t).name ∉ reserved)
      (by simp [IsRespectful, hread])
  | .error e => .isTrue (by simp [IsRespectful, hread])

/-- The forms of a line are paired with their entries. -/
theorem defined_of_prepare {line : String} {b : Batch} (h : prepare line = .ok b) :
  b.defined.map Prod.fst = b.forms.map (Definition.ofForm lineEntry)
    ∧ b.defined.map Prod.snd = b.compiled.entries
    ∧ ∀ p ∈ b.defined, p.1.CompilesTo p.2 ∧ p.2.name = mangle p.1.name
  := by
  have hentries : List.Forall₂ (fun d e => d.CompilesTo e ∧ e.name = mangle d.name)
      (b.forms.map (Definition.ofForm lineEntry)) b.compiled.entries := by
    obtain ⟨-, ⟨hforms, hcompiled⟩ | ⟨hforms, -⟩⟩ := of_prepare h
    · rw [hforms, hcompiled]
      exact .nil
    · exact (compiled_of_prepare h hforms).2.2
  have hlength := hentries.length_eq
  refine ⟨List.map_fst_zip (by omega), List.map_snd_zip (by omega), ?_⟩
  intro p hp
  exact List.forall₂_zip hentries hp

/-- What the forms of a respectful line stand for has no identifier that the session needs. -/
theorem IsRespectful.notMem_reserved {line : String} (hline : IsRespectful line) {b : Batch}
    (h : prepare line = .ok b) {p : Definition × Machine.Entry} (hp : p ∈ b.defined) :
  mangle p.1.name ∉ reserved
  := by
  have hmem := List.mem_map_of_mem hp (f := Prod.fst)
  rw [(defined_of_prepare h).1, List.mem_map] at hmem
  obtain ⟨t, ht, heq⟩ := hmem
  rw [← heq]
  cases hdefinition : t.isDefinition with
  | false =>
    have hentry : mangle lineEntry ∉ reserved := by
      decide +kernel
    rw [Definition.ofForm_of_not_isDefinition lineEntry hdefinition]
    exact hentry
  | true => exact hline b.forms (of_prepare h).1 t ht hdefinition

/-- What loading a line does to a namespace: the helpers are bound, and the definitions. -/
structure Bound (b : Batch) (ns ns' : Machine.Namespace) : Prop where
  helpers : b.forms ≠ [] → ∀ ident helper, (ident, helper) ∈ lineHelpers →
    ns'.lookup ident = some (.helper helper)
  others : ∀ x, (b.forms ≠ [] → x ∉ lineHelpers.map Prod.fst) →
    HasLatest x b.defined (ns.lookup x) (ns'.lookup x)

/-- A line that is ready is always loaded. -/
theorem exists_bound {line : String} (hline : IsRespectful line) {b : Batch}
    (h : prepare line = .ok b) (ns : Machine.Namespace) (st : Machine.State) :
  ∃ ns' st', b.compiled.load 0 ns st = .ok ns' st' ∧ Bound b ns ns'
  := by
  obtain ⟨-, hentries, hcompiles⟩ := defined_of_prepare h
  obtain ⟨-, ⟨hforms, hcompiled⟩ | ⟨hforms, -⟩⟩ := of_prepare h
  · refine ⟨ns, st, ?_, ?_, ?_⟩
    · rw [hcompiled]
      rfl
    · intro hne
      contradiction
    · intro x _
      rw [Batch.defined_eq_nil hforms]
      apply HasLatest.nil
  · obtain ⟨himports, hidentity, -⟩ := compiled_of_prepare h hforms
    have hnodup : (lineHelpers.map Prod.fst).Nodup := by
      decide
    obtain ⟨hhelpers, hothers⟩ := Machine.lookup_bindImports hnodup ns
    have hreserved : ∀ p ∈ b.defined, p.2.name ∉ lineHelpers.map Prod.fst := by
      intro p hp
      rw [(hcompiles p hp).2]
      exact List.not_mem_of_not_mem_cons (hline.notMem_reserved h hp)
    have hnames : ∀ p ∈ b.defined, p.2.name = mangle p.1.name ∧ p.2.name ≠ "identity__3" := by
      intro p hp
      refine ⟨(hcompiles p hp).2, ?_⟩
      intro heq
      apply hreserved p hp
      rw [heq]
      decide
    obtain ⟨ns', st', hbind, hlatest⟩ :=
      bindEntries_latest hnames (hhelpers "identity__3" .identity (by decide)) st
    refine ⟨ns', st', ?_, ?_, ?_⟩
    · rw [Machine.Module.load, himports, hidentity, ← hentries, hbind]
    · intro _ ident helper hmem
      have hx := hlatest ident
      have hnone : latest ident b.defined = none := by
        rw [latest_eq_none]
        intro p hp heq
        rw [← (hcompiles p hp).2] at heq
        apply hreserved p hp
        rw [heq]
        exact List.mem_map_of_mem hmem
      rw [hx.of_none hnone, hhelpers ident helper hmem]
    · intro x hx
      rw [← hothers x (hx hforms)]
      exact hlatest x

end Session

end Springboard
