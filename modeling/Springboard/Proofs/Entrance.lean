import Springboard.Proofs.Destination
import Springboard.Proofs.Retention
import Springboard.Proofs.Sessions

/-!
# Running a file

A file is loaded, and then the function is called that the name of the entry is bound to. An
expression of the file is bound to the identifier of that name. Main statement: if the name is an
identifier itself, one function is called, once, and its value is shown; it is that of the
expression, unless a later definition has the same identifier. If the name is no identifier, nothing
is called.
-/

namespace Springboard

open Compile

/-! ### Loaded texts -/

/-- What stands before and after an item stands before and after what it is related to. -/
theorem exists_split_of_forall₂ {α β : Type} {R : α → β → Prop} {before after : List α} {a : α}
    {bs : List β} (h : List.Forall₂ R (before ++ a :: after) bs) :
  ∃ before' b after', bs = before' ++ b :: after' ∧ R a b ∧ List.Forall₂ R after after'
  := by
  induction before generalizing bs with
  | nil =>
    cases h with
    | cons hfirst hrest => exact ⟨[], _, _, rfl, hfirst, hrest⟩
  | cons first before ih =>
    cases h with
    | cons _ hrest =>
      obtain ⟨before', b, after', rfl, hb, hafter⟩ := ih hrest
      exact ⟨_ :: before', b, after', rfl, hb, hafter⟩

/-- If some items have a property, one of them is the last. -/
theorem exists_last {α : Type} {P : α → Prop} {as : List α} (h : ∃ a ∈ as, P a) :
  ∃ before a after, as = before ++ a :: after ∧ P a ∧ ∀ later ∈ after, ¬ P later
  := by
  induction as with
  | nil =>
    obtain ⟨a, ha, -⟩ := h
    contradiction
  | cons first as ih =>
    by_cases hlater : ∃ a ∈ as, P a
    · obtain ⟨before, a, after, rfl, ha, hafter⟩ := ih hlater
      exact ⟨first :: before, a, after, rfl, ha, hafter⟩
    · obtain ⟨a, hmem, ha⟩ := h
      obtain rfl | hmem := List.mem_cons.mp hmem
      · exact ⟨[], a, as, rfl, ha, fun later hmem hP => hlater ⟨later, hmem, hP⟩⟩
      · exact absurd ⟨a, hmem, ha⟩ hlater

namespace Session

/-- A compilation that succeeds in a session changes only its notes. -/
theorem compiling_eq_ok {α : Type} {c : Compile α} {s s' : Session} {a : α} :
  compiling c s = .ok a s'
    ↔ ∃ p, c ⟨.default, s.notes⟩ = .ok a p ∧ s' = { s with notes := p.notes }
  := by
  rw [compiling, EStateM.run]
  cases c ⟨.default, s.notes⟩ with
  | ok b p =>
    simp only [EStateM.Result.ok.injEq]
    constructor
    · rintro ⟨rfl, rfl⟩
      exact ⟨p, ⟨rfl, rfl⟩, rfl⟩
    · rintro ⟨q, ⟨rfl, rfl⟩, rfl⟩
      exact ⟨rfl, rfl⟩
  | error e p => simp

/-- The forms of a text that was loaded by a session without names have different names, and what they
are compiled to is bound in the session's namespace. -/
theorem of_loadText {entry : String} {runtime : Tree} {text : String} {forms : List Tree}
    (hread : Tree.readAll text = .ok forms) {s : Session}
    (h : loadText ⟨.text entry, runtime⟩ text (.ofNamespace []) = .ok () s) :
  (forms.map fun form => (Definition.ofForm entry form).name).Nodup
    ∧ ∃ entries,
      List.Forall₂ (fun form e => (Definition.ofForm entry form).CompilesTo e
        ∧ e.name = mangle (Definition.ofForm entry form).name) forms entries
      ∧ Machine.Entered 0 entries (Machine.bindImports lineHelpers []) s.namespaceOf
  := by
  rw [loadText, bind_eq_ok] at h
  obtain ⟨program, s₁, hcompiled, h⟩ := h
  obtain ⟨p, hp, rfl⟩ := compiling_eq_ok.mp hcompiled
  simp only [bind_eq_ok] at hp
  obtain ⟨program', p₁, hprogram, library, p₂, -, source, p₃, -, hp⟩ := hp
  cases hp
  have hresult := result_eq_ok.mpr ⟨p₁, hprogram⟩
  cases hm : Machine.Module.ofProgram program with
  | error e =>
    rw [load, bind_of_error (attempt_of_failed hm _)] at h
    contradiction
  | ok m =>
    obtain ⟨himports, hidentity, hentries⟩ := compiled_of_compileText hread hresult hm
    have hbound : ((Machine.bindImports lineHelpers []).lookup "identity__3").isSome := by
      decide +kernel
    obtain ⟨ns, st, hload, hentered⟩ := Machine.exists_entered m.entries hbound .start
    rw [← himports, ← hidentity] at hload
    have hloaded := load_of_module hm hload p.notes
    cases h.symm.trans hloaded
    obtain ⟨forms', es, hread', -, -, hnodup⟩ := names_of_compileText hresult
    rw [hread] at hread'
    cases hread'
    rw [List.map_map] at hnodup
    rw [List.forall₂_map_left_iff] at hentries
    exact ⟨hnodup, m.entries, hentries, hentered⟩

end Session

/-! ### Identifiers that are bound -/

/-- A name is its own identifier just when it is an identifier that is not reserved. -/
theorem isPlain_iff {name : String} : IsPlain name ↔ mangle name = name := by
  constructor
  · exact mangle_of_isPlain
  · intro h
    rw [← h]
    exact isPlain_mangle name

namespace Command

/-! ### Running -/

/-- How a run ends that calls a function once, without arguments: what stops the call stops the run,
and otherwise the value is shown on a line of its own, unless it is nothing. -/
structure CallsOnce (f : Machine.Value) (s : Session) (w : World)
    (result : EStateM.Result Stop World Session) : Prop where
  stopped : ∀ stop w', stepping (Session.call f []) s w = .error stop w' → result = .error stop w'
  silent : ∀ v s' w', stepping (Session.call f []) s w = .ok (v, s') w' → v.isNothing →
    result = .ok s' w'
  shown : ∀ v s' w' text, stepping (Session.call f []) s w = .ok (v, s') w' →
    v.isNothing = false → s'.showValue v = .ok text →
      result = .ok s' { w' with out := w'.out ++ (text ++ "\n") }
  /-- A value that cannot be shown stops the run as well. -/
  unshown : ∀ v s' w' fault, stepping (Session.call f []) s w = .ok (v, s') w' →
    v.isNothing = false → s'.showValue v = .error fault →
      result = .error (.failed (.fault fault)) w'

/-- A step of a session that succeeds in a command succeeds in the session. -/
theorem of_stepping {α : Type} {step : Step α} {s s' : Session} {a : α} {w w' : World}
    (h : stepping step s w = .ok (a, s') w') :
  step { s with notes := [] } = .ok a s'
  := by
  unfold stepping at h
  dsimp only [EStateM.run] at h
  cases hstep : step { s with notes := [] } with
  | ok b s₁ =>
    rw [hstep] at h
    simp only [bind_eq_ok, pure_eq_ok] at h
    obtain ⟨_, w₁, -, h, -⟩ := h
    cases h
    rfl
  | error stop s₁ =>
    rw [hstep] at h
    simp only [bind_eq_ok] at h
    obtain ⟨_, w₁, -, h⟩ := h
    contradiction

/-- What is written to the one output leaves the other alone. -/
theorem write_out (text : String) (w : World) :
  write { out := text } w = .ok () { w with out := w.out ++ text }
  := by
  have hwrite : write { out := text } w
      = .ok () { w with out := w.out ++ text, err := w.err ++ "" } := by
    rfl
  rw [hwrite, String.append_empty]

section Run

variable {o : Options} {filename text : String} {s s₁ : Session} {w w₁ : World}
  (hread : w.files.read? filename = some text)
  (hload : stepping (Session.loadText { entry := .text o.entry } text) s w = .ok ((), s₁) w₁)

include hread hload

/-- A file whose entry is not bound is only loaded. -/
theorem runFile_of_none (h : s₁.namespaceOf.lookup o.entry = none) :
  runFile o filename s w = .ok s₁ w₁
  := by
  rw [runFile, bind_of_ok (readFile_of_read? hread), bind_of_ok hload]
  dsimp only
  rw [h]
  rfl

/-- A file whose entry is bound to a function is loaded, and the function is called. -/
theorem callsOnce_of_entry {id home : Nat} {e : Machine.Entry} {fallback : Machine.Value}
    (h : s₁.namespaceOf.lookup o.entry = some (.entry id home e fallback)) :
  CallsOnce (.entry id home e fallback) s₁ w₁ (runFile o filename s w)
  := by
  rw [runFile, bind_of_ok (readFile_of_read? hread), bind_of_ok hload]
  dsimp only
  rw [h]
  dsimp only
  constructor
  · intro stop w' hcall
    exact bind_of_error hcall
  · intro v s' w' hcall hv
    rw [bind_of_ok hcall]
    dsimp only
    rw [present, if_pos hv]
    rfl
  · intro v s' w' shown hcall hv hshown
    rw [bind_of_ok hcall]
    dsimp only
    rw [present, if_neg (by rw [hv]; exact Bool.false_ne_true), hshown]
    exact bind_of_ok (bind_of_ok (write_out _ w'))
  · intro v s' w' fault hcall hv hfault
    rw [bind_of_ok hcall]
    dsimp only
    rw [present, if_neg (by rw [hv]; exact Bool.false_ne_true), hfault]
    rfl

end Run

/-- The form that the entry of a file is bound to: its expression, unless a later definition has the
identifier of the entry; then it is the last of these. -/
def IsEntered (entry : String) (t : Tree) (after : List Tree) (form : Tree) : Prop :=
  (form = t ∧ ∀ later ∈ after, mangle (Definition.ofForm entry later).name ≠ entry)
    ∨ ∃ between rest, after = between ++ form :: rest ∧ form.isDefinition
      ∧ mangle (Definition.ofForm entry form).name = entry
      ∧ ∀ later ∈ rest, mangle (Definition.ofForm entry later).name ≠ entry

/-- There is such a form, and no later one has its identifier. -/
theorem exists_isEntered {entry : String} (hentry : IsPlain entry) {before after : List Tree}
    {t : Tree} (ht : t.isDefinition = false)
    (hnodup : ((before ++ t :: after).map fun form => (Definition.ofForm entry form).name).Nodup) :
  ∃ form earlier rest, IsEntered entry t after form ∧ before ++ t :: after = earlier ++ form :: rest
    ∧ mangle (Definition.ofForm entry form).name = entry
    ∧ ∀ later ∈ rest, mangle (Definition.ofForm entry later).name ≠ entry
  := by
  have hname : (Definition.ofForm entry t).name = entry := by
    rw [Definition.ofForm_of_not_isDefinition entry ht]
  by_cases hlater : ∃ later ∈ after, mangle (Definition.ofForm entry later).name = entry
  · obtain ⟨between, form, rest, rfl, hform, hrest⟩ := exists_last hlater
    -- another expression would have the name of the first
    have hdefinition : form.isDefinition = true := by
      rw [← Bool.not_eq_false]
      intro hexpression
      rw [List.map_append, List.map_cons, List.nodup_append, List.nodup_cons] at hnodup
      apply hnodup.2.1.1
      rw [hname, List.mem_map]
      refine ⟨form, List.mem_append_right between List.mem_cons_self, ?_⟩
      rw [Definition.ofForm_of_not_isDefinition entry hexpression]
    refine ⟨form, before ++ t :: between, rest, .inr ⟨between, rest, rfl, hdefinition, hform, hrest⟩,
      ?_, hform, hrest⟩
    rw [List.append_assoc, List.cons_append]
  · rw [not_exists] at hlater
    have hafter : ∀ later ∈ after, mangle (Definition.ofForm entry later).name ≠ entry :=
      fun later hmem heq => hlater later ⟨hmem, heq⟩
    refine ⟨t, before, after, .inl ⟨rfl, hafter⟩, rfl, ?_, hafter⟩
    rw [hname, mangle_of_isPlain hentry]

/-- **A file is run by calling its entry, if the entry's name is an identifier.** Let a file have a
text that loads, with an expression among its forms. If the name of the entry is an identifier that is
not reserved, then one function is called, once: that of the expression, unless a later definition has
the same identifier, of which the last is called then. The value is shown unless it is nothing, and
what stops the call stops the run. If the name of the entry is no such identifier, then nothing is
called and nothing is shown: the run ends with the loading. -/
theorem runFile_calls_entry
    (o : Options) {filename text : String} {w w₁ : World} {s : Session} {before after : List Tree}
    {t : Tree} (hread : w.files.read? filename = some text)
    (hforms : Tree.readAll text = .ok (before ++ t :: after)) (ht : t.isDefinition = false)
    (hload : stepping (Session.loadText { entry := .text o.entry } text) (.ofNamespace []) w
      = .ok ((), s) w₁) :
  (IsPlain o.entry → ∃ form e id fallback, IsEntered o.entry t after form
      ∧ (Definition.ofForm o.entry form).CompilesTo e
      ∧ CallsOnce (.entry id 0 e fallback) s w₁ (runFile o filename (.ofNamespace []) w))
    ∧ (¬ IsPlain o.entry → runFile o filename (.ofNamespace []) w = .ok s w₁)
  := by
  obtain ⟨hnodup, entries, hentries, hentered⟩ := Session.of_loadText hforms (of_stepping hload)
  constructor
  · intro hplain
    obtain ⟨form, earlier, rest, hisEntered, hsplit, hname, hrest⟩ :=
      exists_isEntered hplain ht hnodup
    rw [hsplit] at hentries
    obtain ⟨es, e, es', rfl, ⟨hcompiles, he⟩, hlater⟩ := exists_split_of_forall₂ hentries
    have hlast : e.name ∉ es'.map Machine.Entry.name := by
      intro hmem
      obtain ⟨e', he', heq⟩ := List.mem_map.mp hmem
      obtain ⟨later, hmem, -, hlater⟩ := exists_of_mem_right hlater he'
      apply hrest later hmem
      rw [← hlater, heq, he, hname]
    obtain ⟨id, fallback, hlookup⟩ := hentered.last es e es' rfl hlast
    rw [he, hname] at hlookup
    exact ⟨form, e, id, fallback, hisEntered, hcompiles, callsOnce_of_entry hread hload hlookup⟩
  · intro hplain
    apply runFile_of_none hread hload
    -- all identifiers that are bound are plain
    have himports : ∀ ident ∈ Session.lineHelpers.map Prod.fst, mangle ident = ident := by
      decide +kernel
    rw [hentered.unnamed, (Machine.lookup_bindImports (by decide) []).2]
    · rfl
    · intro hmem
      exact hplain (isPlain_iff.mpr (himports o.entry hmem))
    · intro hmem
      obtain ⟨e, he, heq⟩ := List.mem_map.mp hmem
      obtain ⟨form, -, -, hname⟩ := exists_of_mem_right hentries he
      apply hplain
      rw [← heq, hname]
      exact isPlain_mangle _

/-- A file that consists of an expression, and one in which a definition behind the expression has the
identifier of a name for the entry. -/
def entryFiles : Files :=
  .ofList [("sum.lisp", "(+ 40 2)\n"), ("shared.lisp", "5 (defn a-b () 7)\n")]

/-- Whether a step of a session succeeds and leaves the first output empty. -/
def staysSilent (result : EStateM.Result Stop World (Unit × Session)) : Bool :=
  match result with
  | .ok _ w => w.out == ""
  | .error _ _ => false

/-- A step that succeeds and leaves the first output empty ends in a session. -/
theorem of_staysSilent {result : EStateM.Result Stop World (Unit × Session)}
    (h : staysSilent result) :
  ∃ s w, result = .ok ((), s) w ∧ w.out = ""
  := by
  cases result with
  | ok a w => exact ⟨a.2, w, rfl, beq_iff_eq.mp h⟩
  | error stop w => contradiction

/-- With the identifier of the later definition for the entry's name it is the definition that is
called, and not the expression; with a name that is no identifier nothing is called. -/
theorem runFile_calls_entry_entryFiles :
  (∃ t d e id fallback s w, Tree.readAll "5 (defn a-b () 7)\n" = .ok [t, d] ∧ t.isDefinition = false
      ∧ (Definition.ofForm "a_b" d).name = "a-b" ∧ (Definition.ofForm "a_b" d).CompilesTo e
      ∧ CallsOnce (.entry id 0 e fallback) s w
        (runFile { entry := "a_b" } "shared.lisp" (.ofNamespace []) { files := entryFiles }))
    ∧ ∃ s w, runFile { entry := "my-entry" } "sum.lisp" (.ofNamespace []) { files := entryFiles }
        = .ok s w ∧ w.out = ""
  := by
  constructor
  · have hforms : (Tree.readAll "5 (defn a-b () 7)\n").toOption.any (fun forms =>
        forms.map (fun form => (form.isDefinition, (Definition.ofForm "a_b" form).name))
          = [(false, "a_b"), (true, "a-b")]) := by
      decide +kernel
    have hread : entryFiles.read? "shared.lisp" = some "5 (defn a-b () 7)\n" := by
      decide +kernel
    obtain ⟨s, w, hload, -⟩ := @of_staysSilent (stepping (Session.loadText { entry := .text "a_b" }
      "5 (defn a-b () 7)\n") (.ofNamespace []) { files := entryFiles }) (by decide +kernel)
    obtain ⟨forms, hforms, hnames⟩ := exists_of_any hforms
    obtain ⟨t, rest, rfl, ht, hrest⟩ := List.map_eq_cons_iff.mp (of_decide_eq_true hnames)
    obtain ⟨d, rest, rfl, hd, hrest⟩ := List.map_eq_cons_iff.mp hrest
    cases List.map_eq_nil_iff.mp hrest
    rw [Prod.mk.injEq] at ht hd
    have hident : mangle (Definition.ofForm "a_b" d).name = "a_b" := by
      rw [hd.2]
      decide +kernel
    have hsplit : Tree.readAll "5 (defn a-b () 7)\n" = .ok ([] ++ t :: [d]) := by
      exact hforms
    obtain ⟨form, e, id, fallback, hentered, hcompiles, hcalls⟩ :=
      (runFile_calls_entry { entry := "a_b" } hread hsplit ht.1 hload).1
        (isPlain_iff.mpr (by decide +kernel))
    have hform : form = d := by
      obtain ⟨-, hafter⟩ | ⟨between, rest, hafter, -⟩ := hentered
      · exact absurd hident (hafter d List.mem_cons_self)
      · rw [← List.mem_singleton, hafter]
        exact List.mem_append_right between List.mem_cons_self
    rw [hform] at hcompiles
    exact ⟨t, d, e, id, fallback, s, w, hforms, ht.1, hd.2, hcompiles, hcalls⟩
  · have hforms : (Tree.readAll "(+ 40 2)\n").toOption.any (fun forms =>
        forms.map Tree.isDefinition = [false]) := by
      decide +kernel
    have hread : entryFiles.read? "sum.lisp" = some "(+ 40 2)\n" := by
      decide +kernel
    obtain ⟨s, w, hload, hout⟩ := @of_staysSilent (stepping (Session.loadText
      { entry := .text "my-entry" } "(+ 40 2)\n") (.ofNamespace []) { files := entryFiles })
      (by decide +kernel)
    obtain ⟨forms, hforms, hnames⟩ := exists_of_any hforms
    obtain ⟨t, rest, rfl, ht, hrest⟩ := List.map_eq_cons_iff.mp (of_decide_eq_true hnames)
    have hplain : ¬ IsPlain "my-entry" := by
      rw [isPlain_iff]
      decide +kernel
    have hsplit : Tree.readAll "(+ 40 2)\n" = .ok ([] ++ t :: rest) := by
      exact hforms
    exact ⟨s, w, (runFile_calls_entry { entry := "my-entry" } hread hsplit ht hload).2 hplain, hout⟩

end Command

end Springboard
