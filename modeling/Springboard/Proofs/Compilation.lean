import Springboard.Compiler
import Springboard.Proofs.Assembly

/-!
# What a successful compilation has done

The compiler takes one form after the other through the stages and takes notes. If it succeeds, the
forms are definitions without other definitions in them, or expressions that became such a
definition; their names differ; and the program is the one that is assembled from them. If their
names also keep apart as identifiers, that program can be loaded.
-/

namespace Springboard

open NameSource Compile

/-- The definition that a form stands for; an expression becomes the body of the entry. -/
def Definition.ofForm (entry : String) : Tree → Definition
  | .definition name params body _ => ⟨name, params, body⟩
  | t => ⟨entry, [], t⟩

/-- A form that was read is wrapped in the definition that it stands for. -/
theorem wrapEntry_eq (entry : String) {t : Tree} (h : Surface true t) :
  t.wrapEntry (.text entry) = .ok (Definition.ofForm entry t).toTree
    ∧ Surface true (Definition.ofForm entry t).body
  := by
  cases h with
  | definition name params _ hbody => exact ⟨rfl, hbody⟩
  | literal value => exact ⟨rfl, .literal value⟩
  | var x => exact ⟨rfl, .var x⟩
  | operation hcount hoperands => exact ⟨rfl, .operation hcount hoperands⟩
  | trivialConditional htrivial htest hconseq halt =>
    exact ⟨rfl, .trivialConditional htrivial htest hconseq halt⟩
  | seriousConditional htest hconseq halt => exact ⟨rfl, .seriousConditional htest hconseq halt⟩
  | abstraction params hbody => exact ⟨rfl, .abstraction params hbody⟩
  | application hrator hrands => exact ⟨rfl, .application hrator hrands⟩

/-! ### Steps of the compiler -/

/-- A step that may fail has a value just when it does not fail. -/
theorem attempt_eq_ok {α : Type} {x : Except Error α} {a : α} {p p' : Progress} :
  attempt x p = .ok a p' ↔ x = .ok a ∧ p = p'
  := by
  cases x with
  | ok b =>
    rw [attempt, pure_eq_ok, Except.ok.injEq]
  | error e =>
    constructor
    · intro h
      contradiction
    · rintro ⟨h, -⟩
      contradiction

/-- A step that draws names changes nothing else. -/
theorem naming_eq_ok {α : Type} {step : Naming α} {a : α} {p p' : Progress} :
  naming step p = .ok a p' ↔ ∃ names, step p.names = .ok (a, names) ∧ { p with names := names } = p'
  := by
  unfold naming
  cases hstep : step p.names with
  | error e =>
    constructor
    · intro h
      contradiction
    · rintro ⟨names, h, -⟩
      contradiction
  | ok r =>
    obtain ⟨b, names⟩ := r
    dsimp only
    constructor
    · intro h
      cases h
      exact ⟨names, rfl, rfl⟩
    · rintro ⟨names', h, rfl⟩
      cases h
      rfl

/-- A note that is taken leaves the names alone. -/
theorem note_eq_ok {n : Note} {p p' : Progress} {a : Unit} (h : note n p = .ok a p') :
  p'.names = p.names
  := by
  cases h
  rfl

/-- A definition that is compiled holds no definition, and is converted and suspended. -/
theorem of_compileDefinition
    {ak : String} {d : Definition} (hd : Surface true d.body) {p p' : Progress} {t : Tree}
    (h : compileDefinition ak d.toTree p = .ok t p') :
  Surface false d.body ∧ (d.threaded ak p.names.next).suspend = .ok t
    ∧ p'.names = ⟨p.names.start, (Tree.threadedBody ak d.name d.params d.body p.names.next).2⟩
  := by
  simp only [compileDefinition, bind_eq_ok, attempt_eq_ok, naming_eq_ok, pure_eq_ok] at h
  obtain ⟨converted, p₁, ⟨names, hconverted, rfl⟩, _, p₂, hp₂, abstracted, p₃, ⟨habstracted, rfl⟩,
    _, p₄, hp₄, suspended, p₅, ⟨hsuspended, rfl⟩, _, p₆, hp₆, rfl, rfl⟩ := h
  have hsurface := Tree.surface_of_convertDefinition hd hconverted
  obtain ⟨u, hu, hu'⟩ := @Tree.convertDefinition_eq ak d.name d.params d.body none hsurface
    p.names.start p.names.next
  have hconverted : (Tree.definition d.name d.params d.body none).convertDefinition
      ⟨p.names.start, p.names.next⟩ = .ok (converted, names) := hconverted
  rw [hu] at hconverted
  cases hconverted
  rw [hu'] at habstracted
  cases habstracted
  refine ⟨hsurface, hsuspended, ?_⟩
  rw [note_eq_ok hp₆, note_eq_ok hp₄, note_eq_ok hp₂]

/-- Forms that are compiled have different names; they are converted with one source of names, and
suspended. -/
theorem of_compileDefinitions
    {entry ak : String} {forms : List Tree} (hforms : ∀ t ∈ forms, Surface true t)
    {seen : List String} {p p' : Progress} {ts : List Tree}
    (h : compileDefinitions (.text entry) ak seen forms p = .ok ts p') :
  let Ds := forms.map (Definition.ofForm entry)
  (∀ d ∈ Ds, Surface false d.body ∧ d.name ∉ seen) ∧ Ds.Pairwise (fun d d' => d.name ≠ d'.name)
    ∧ Tree.suspendAll ((Definition.numbered ak Ds p.names.next).map fun q => q.1.threaded ak q.2)
      = .ok ts
    ∧ p'.names = ⟨p.names.start, Definition.numberAfter ak Ds p.names.next⟩
  := by
  induction forms generalizing seen p ts with
  | nil =>
    rw [compileDefinitions, pure_eq_ok] at h
    obtain ⟨rfl, rfl⟩ := h
    exact ⟨fun d hd => by contradiction, .nil, rfl, rfl⟩
  | cons form forms ih =>
    obtain ⟨hwrap, hbody⟩ := wrapEntry_eq entry (hforms form List.mem_cons_self)
    rw [compileDefinitions, bind_eq_ok] at h
    obtain ⟨defn, p₁, hdefn, h⟩ := h
    obtain ⟨hdefn, rfl⟩ := attempt_eq_ok.mp hdefn
    rw [hwrap] at hdefn
    cases hdefn
    have hname : (Definition.ofForm entry form).toTree.name?.getD ""
        = (Definition.ofForm entry form).name := rfl
    dsimp only at h
    rw [hname] at h
    split at h
    · exact absurd h throw_ne_ok
    rename_i hunseen
    simp only [bind_eq_ok, pure_eq_ok] at h
    obtain ⟨_, p₂, hp₂, first, p₃, hfirst, rest, p₄, hrest, rfl, rfl⟩ := h
    obtain ⟨hsurface, hsuspend, hnext⟩ := of_compileDefinition hbody hfirst
    rw [note_eq_ok hp₂] at hsuspend hnext
    obtain ⟨hDs, hpairwise, hrest, hend⟩ := ih (fun t ht => hforms t (List.mem_cons_of_mem _ ht)) hrest
    rw [hnext] at hrest hend
    rw [List.contains_iff_mem] at hunseen
    refine ⟨?_, ?_, ?_, hend⟩
    · rw [List.map_cons, List.forall_mem_cons]
      refine ⟨⟨hsurface, hunseen⟩, ?_⟩
      intro d hd
      exact ⟨(hDs d hd).1, fun hmem => (hDs d hd).2 (List.mem_cons_of_mem _ hmem)⟩
    · rw [List.map_cons, List.pairwise_cons]
      refine ⟨?_, hpairwise⟩
      intro d hd heq
      exact (hDs d hd).2 (heq ▸ List.mem_cons_self)
    · rw [List.map_cons, Definition.numbered, List.map_cons, Tree.suspendAll, hsuspend, hrest]
      rfl

/-! ### Whole compilations -/

/-- The result of a compilation is a value that it has. -/
theorem result_eq_ok {α : Type} {c : Compile α} {names : NameSource} {a : α} :
  c.result names = .ok a ↔ ∃ p, c ⟨names, []⟩ = .ok a p
  := by
  have hrun : c.run ⟨names, []⟩ = c ⟨names, []⟩ := rfl
  rw [Compile.result, hrun]
  cases c ⟨names, []⟩ with
  | ok b p => simp
  | error e p => simp

/-- A result that is not an error is a value. -/
theorem exists_of_isOk {α : Type} {result : Except Error α} (h : result.isOk) :
  ∃ a, result = .ok a
  := by
  cases result with
  | ok a => exact ⟨a, rfl⟩
  | error e => contradiction

/-- A result that passes a test is there. -/
theorem exists_of_any {α : Type} {result : Except Error α} {test : α → Bool}
    (h : result.toOption.any test) :
  ∃ a, result = .ok a ∧ test a
  := by
  cases result with
  | ok a => exact ⟨a, rfl, h⟩
  | error e => contradiction

/-- The source of a module is the text of the program that a text is compiled to. -/
theorem exists_module_of_source
    {params : Parameters} {text emitted : String} {names : NameSource}
    (h : (compileToSource params text).result names = .ok emitted) :
  ∃ program path, (compileText params text).result names = .ok program
    ∧ params.moduleName = .ok path ∧ program.emitProgram path = .ok emitted
  := by
  obtain ⟨p, hp⟩ := result_eq_ok.mp h
  rw [compileToSource, bind_eq_ok] at hp
  obtain ⟨program, p₁, hprogram, hp⟩ := hp
  rw [bind_eq_ok] at hp
  obtain ⟨path, p₂, hpath, hemit⟩ := hp
  exact ⟨program, path, result_eq_ok.mpr ⟨p₁, hprogram⟩, (attempt_eq_ok.mp hpath).1,
    (attempt_eq_ok.mp hemit).1⟩

/-- Where the source of a module is emitted, the text has a program. -/
theorem exists_program_of_source
    {params : Parameters} {text emitted : String} {names : NameSource}
    (h : (compileToSource params text).result names = .ok emitted) :
  ∃ program, (compileText params text).result names = .ok program
  := by
  obtain ⟨program, -, hprogram, -⟩ := exists_module_of_source h
  exact ⟨program, hprogram⟩

/-- A text that is compiled can be read. -/
theorem exists_forms_of_compileText
    {params : Parameters} {text : String} {names : NameSource} {program : Tree}
    (h : (compileText params text).result names = .ok program) :
  ∃ forms, Tree.readAll text = .ok forms
  := by
  obtain ⟨p, hp⟩ := result_eq_ok.mp h
  rw [compileText, bind_eq_ok] at hp
  obtain ⟨forms, p₁, hforms, -⟩ := hp
  exact ⟨forms, (attempt_eq_ok.mp hforms).1⟩

/-- A text that is compiled has forms with different names and without nested definitions. They have
been converted, suspended and made entries, one after the other. -/
theorem stages_of_run
    {params : Parameters} {entry : String} (hentry : params.entry = .text entry) {text : String}
    {forms : List Tree} (hread : Tree.readAll text = .ok forms) {start n : Int} {notes : List Note}
    {program : Tree} {p : Progress} (h : compileText params text ⟨⟨start, n⟩, notes⟩ = .ok program p) :
  let Ds := forms.map (Definition.ofForm entry)
  (∀ d ∈ Ds, Surface false d.body) ∧ Ds.Pairwise (fun d d' => d.name ≠ d'.name)
    ∧ ∃ ts,
      Tree.suspendAll ((Definition.placed Ds n).map fun p => p.1.threaded (applyKName n) p.2) = .ok ts
        ∧ Tree.toProgram (helpersAt n) ts ⟨start, Definition.firstFlag Ds n⟩ = .ok (program, p.names)
  := by
  intro Ds
  rw [compileText, bind_eq_ok] at h
  obtain ⟨forms', p₁, hforms, h⟩ := h
  obtain ⟨hforms, rfl⟩ := attempt_eq_ok.mp hforms
  rw [hread] at hforms
  cases hforms
  simp only [compileForms, compileReading, bind_eq_ok, naming_eq_ok, pure_eq_ok] at h
  obtain ⟨helpers, p₂, ⟨names, hhelpers, rfl⟩, ts, p₃, hts, program', p₄, ⟨names', hprogram, rfl⟩, h⟩
    := h
  obtain ⟨_, p₅, hnote, rfl, rfl⟩ := h
  rw [helperNames_eq] at hhelpers
  cases hhelpers
  rw [hentry] at hts
  obtain ⟨hDs, hpairwise, hsuspended, hnames⟩ :=
    of_compileDefinitions (fun t ht => surface_of_readAll hread ht) hts
  refine ⟨fun d hd => (hDs d hd).1, hpairwise, ts, hsuspended, ?_⟩
  have hnames : p₃.names = ⟨start, Definition.firstFlag Ds n⟩ := hnames
  rw [hnames] at hprogram
  rw [note_eq_ok hnote]
  exact hprogram

/-- The stages of a compilation that has a result. -/
theorem stages_of_compileText
    {params : Parameters} {entry : String} (hentry : params.entry = .text entry) {text : String}
    {forms : List Tree} (hread : Tree.readAll text = .ok forms) {start n : Int} {program : Tree}
    (h : (compileText params text).result ⟨start, n⟩ = .ok program) :
  let Ds := forms.map (Definition.ofForm entry)
  (∀ d ∈ Ds, Surface false d.body) ∧ Ds.Pairwise (fun d d' => d.name ≠ d'.name)
    ∧ ∃ ts names,
      Tree.suspendAll ((Definition.placed Ds n).map fun p => p.1.threaded (applyKName n) p.2) = .ok ts
        ∧ Tree.toProgram (helpersAt n) ts ⟨start, Definition.firstFlag Ds n⟩ = .ok (program, names)
  := by
  intro Ds
  obtain ⟨p, h⟩ := result_eq_ok.mp h
  obtain ⟨hsurface, hpairwise, ts, hts, hprogram⟩ := stages_of_run hentry hread h
  exact ⟨hsurface, hpairwise, ts, p.names, hts, hprogram⟩

/-- If the identifiers of a text that is compiled keep apart, its program is the module of its
definitions. -/
theorem of_compileText
    {params : Parameters} {entry : String} (hentry : params.entry = .text entry) {text : String}
    {forms : List Tree} (hread : Tree.readAll text = .ok forms) {start n : Int} (hn : 0 ≤ n)
    {program : Tree} (h : (compileText params text).result ⟨start, n⟩ = .ok program)
    {source : String → Prop} (hlexicon : Lexicon source (forms.map (Definition.ofForm entry))) :
  Machine.Module.ofProgram program = .ok (Machine.moduleAt (forms.map (Definition.ofForm entry)) n)
  := by
  obtain ⟨-, -, ts, names, hts, hprogram⟩ := stages_of_compileText hentry hread h
  obtain ⟨us, program', names', hus, hprogram', hmodule⟩ :=
    Machine.exists_program hlexicon hn start
  rw [hts] at hus
  cases hus
  rw [hprogram] at hprogram'
  cases hprogram'
  exact hmodule

/-! ### The names of compiled forms -/

/-- A form that is a definition stands for itself. -/
theorem Definition.toTree_ofForm (entry : String) {t : Tree} (h : Surface true t)
    (hdefinition : t.isDefinition) :
  (Definition.ofForm entry t).toTree = t
  := by
  cases h with
  | definition name params _ _ => rfl
  | _ => contradiction

/-- A form that is not a definition becomes the body of the entry. -/
theorem Definition.ofForm_of_not_isDefinition (entry : String) {t : Tree}
    (h : t.isDefinition = false) :
  Definition.ofForm entry t = ⟨entry, [], t⟩
  := by
  cases t with
  | definition name params body own => contradiction
  | _ => rfl

/-- The names in what a form stands for are names of the form. -/
theorem Definition.mem_names_of_ofForm {entry : String} {t : Tree} {x : String}
    (hx : x ∈ (ofForm entry t).params ++ (ofForm entry t).body.names) :
  x ∈ t.names
  := by
  cases hdefinition : t.isDefinition with
  | false =>
    rw [ofForm_of_not_isDefinition entry hdefinition] at hx
    exact hx
  | true =>
    cases t with
    | definition name params body own => exact List.mem_cons_of_mem _ hx
    | _ => contradiction

/-- What a form stands for has a name of the form, or that of the entry. -/
theorem Definition.name_ofForm (entry : String) (t : Tree) :
  (ofForm entry t).name ∈ t.names ∨ (ofForm entry t).name = entry
  := by
  cases t with
  | definition name params body own => exact .inl List.mem_cons_self
  | _ => exact .inr rfl

/-- The parameters of what a form stands for are distinct if those in the form are. -/
theorem Definition.distinct_ofForm (entry : String) {t : Tree} (h : t.hasDistinctParams) :
  (ofForm entry t).params.Nodup ∧ (ofForm entry t).body.hasDistinctParams
  := by
  cases hdefinition : t.isDefinition with
  | false =>
    rw [ofForm_of_not_isDefinition entry hdefinition]
    exact ⟨.nil, h⟩
  | true =>
    cases t with
    | definition name params body own =>
      rw [Tree.hasDistinctParams, Bool.and_eq_true, decide_eq_true_iff] at h
      exact h
    | _ => contradiction

/-- The names of well named forms and of the entry that runs the expressions among them. -/
theorem WellNamed.lexicon_ofForm
    {forms : List Tree} (h : WellNamed forms)
    (hDs : ∀ d ∈ forms.map (Definition.ofForm "main"), Surface false d.body) :
  Lexicon (fun x => x ∈ Tree.namesAll forms ∨ x = "main") (forms.map (Definition.ofForm "main"))
  := by
  have hident : mangle "main" = "main" := by decide
  have hmain : ∀ {x}, mangle x = "main" → x = "main" := fun hx => eq_of_mangle_eq hx (by decide)
  refine ⟨fun {d} hd => hDs d hd, ?_, ?_, ?_, ?_, ?_⟩
  · intro d hd x hx
    obtain ⟨t, ht, rfl⟩ := List.mem_map.mp hd
    rw [List.mem_cons] at hx
    obtain rfl | hx := hx
    · obtain hname | hname := Definition.name_ofForm "main" t
      · exact .inl (Tree.mem_namesAll.mpr ⟨t, ht, hname⟩)
      · exact .inr hname
    · exact .inl (Tree.mem_namesAll.mpr ⟨t, ht, Definition.mem_names_of_ofForm hx⟩)
  · intro d hd
    obtain ⟨t, ht, rfl⟩ := List.mem_map.mp hd
    exact (Definition.distinct_ofForm "main" (Tree.haveDistinctParams_iff.mp h.distinct t ht)).1
  · intro d hd
    obtain ⟨t, ht, rfl⟩ := List.mem_map.mp hd
    exact (Definition.distinct_ofForm "main" (Tree.haveDistinctParams_iff.mp h.distinct t ht)).2
  · rintro x y (hx | rfl) (hy | rfl) heq
    · exact h.injective x hx y hy heq
    · exact hmain (heq.trans hident)
    · exact (hmain (heq.symm.trans hident)).symm
    · rfl
  · rintro x (hx | rfl)
    · exact h.unnumbered x hx
    · rw [hident]
      decide

/-- A text that is well named and compiled has a program that is the module of its forms. -/
theorem WellNamed.of_compileText
    {text : String} {forms : List Tree} (hread : Tree.readAll text = .ok forms)
    (h : WellNamed forms) {names : NameSource} (hn : 0 ≤ names.next) {program : Tree}
    (hprogram : (compileText {} text).result names = .ok program) :
  let Ds := forms.map (Definition.ofForm "main")
  Lexicon (fun x => x ∈ Tree.namesAll forms ∨ x = "main") Ds
    ∧ Ds.Pairwise (fun d d' => d.name ≠ d'.name)
    ∧ Machine.Module.ofProgram program = .ok (Machine.moduleAt Ds names.next)
  := by
  intro Ds
  obtain ⟨start, n⟩ := names
  obtain ⟨hsurface, hpairwise, -⟩ := stages_of_compileText rfl hread hprogram
  have hlexicon := h.lexicon_ofForm hsurface
  exact ⟨hlexicon, hpairwise, Springboard.of_compileText rfl hread hn hprogram hlexicon⟩

end Springboard
