import Springboard.Command
import Springboard.Proofs.Failure

/-!
# Compiling a file

A file is compiled while it is read: each form goes through the stages before the next one is
looked at, so of several errors another may be met first than where all of the text is read before.
Main statement: a file is compiled just when its text is, and what is then written is the source of
the module of that text; no other file changes.
-/

namespace Springboard

open Compile

/-! ### Reading while compiling -/

/-- Forms that end with an error are never compiled. -/
theorem exists_error_of_ending
    (params : Parameters) {forms : Reading Tree} {e : Error} (h : forms.ending = some e)
    (p : Progress) :
  ∃ e' p', compileReading params forms p = .error e' p'
  := by
  have hhelpers : naming (fun names => .ok (helperNames names)) p
      = .ok (helperNames p.names).1 { p with names := (helperNames p.names).2 } := by
    rfl
  rw [compileReading, bind_of_ok hhelpers, h]
  generalize { p with names := (helperNames p.names).2 } = p₁
  cases hdefinitions : compileDefinitions params.entry
      (((helperNames p.names).1.lookup Helper.applyK.role).getD "") [] forms.items p₁ with
  | error e' p₂ => exact ⟨e', p₂, bind_of_error hdefinitions⟩
  | ok definitions p₂ => exact ⟨e, p₂, bind_of_ok hdefinitions⟩

/-- A text that is compiled while it is read has the program that it has where it is read before. -/
theorem compileReading_eq_ok_iff
    {params : Parameters} {text : String} {p p' : Progress} {program : Tree} :
  compileReading params (Tree.readStream text) p = .ok program p'
    ↔ compileText params text p = .ok program p'
  := by
  cases hending : (Tree.readStream text).ending with
  | some e =>
    have hread : Tree.readAll text = .error e := by
      rw [Tree.readAll, Reading.toExcept, hending]
    obtain ⟨e', p₁, herror⟩ := exists_error_of_ending params hending p
    rw [herror, compileText, bind_of_error (attempt_of_error hread p)]
    apply iff_of_false
    · intro h
      contradiction
    · intro h
      contradiction
  | none =>
    have hread : Tree.readAll text = .ok (Tree.readStream text).items := by
      rw [Tree.readAll, Reading.toExcept, hending]
    have hstream : Tree.readStream text = ⟨(Tree.readStream text).items, none⟩ := by
      rw [← hending]
    rw [compileText, bind_of_ok (attempt_eq_ok.mpr ⟨hread, rfl⟩), compileForms, ← hstream]

/-- The source of a text is what its program is emitted as. -/
theorem compileToSource_eq_ok_iff
    {params : Parameters} {text : String} {names : NameSource} {source : String} :
  (compileToSource params text).result names = .ok source
    ↔ ∃ program library, (compileText params text).result names = .ok program
      ∧ params.moduleName = .ok library ∧ program.emitProgram library = .ok source
  := by
  simp only [result_eq_ok, compileToSource, bind_eq_ok, attempt_eq_ok]
  constructor
  · rintro ⟨p, program, p₁, hprogram, library, p₂, ⟨hlibrary, rfl⟩, hsource, rfl⟩
    exact ⟨program, library, ⟨p₁, hprogram⟩, hlibrary, hsource⟩
  · rintro ⟨program, library, ⟨p, hprogram⟩, hlibrary, hsource⟩
    exact ⟨p, program, p, hprogram, library, p, ⟨hlibrary, rfl⟩, hsource, rfl⟩

/-- A result that is not a value is an error. -/
theorem exists_of_not_isOk {α : Type} {result : Except Error α} (h : result.isOk = false) :
  ∃ e, result = .error e
  := by
  cases result with
  | ok a => contradiction
  | error e => exact ⟨e, rfl⟩

/-! ### Files -/

namespace Files

/-- A file has the text that it was given, and the others have the texts they had. -/
theorem lookup_put (files : Files) (path : Path) (text : String) (path' : Path) :
  (files.put path text).entries.lookup path'
    = if path' = path then some text else files.entries.lookup path'
  := by
  exact lookup_cons_filter files.entries path text path'

/-- What is written is put in its place. -/
theorem eq_put_of_write? {files files' : Files} {name text : String}
    (h : files.write? name text = some files') :
  files' = files.put (Path.ofText name) text
  := by
  rw [write?, Option.ite_none_right_eq_some] at h
  exact (Option.some.inj h.2).symm

/-- What could be written can be written over. -/
theorem write?_put {files files' : Files} {name text : String}
    (h : files.write? name text = some files') (text' : String) :
  files'.write? name text' = some (files'.put (Path.ofText name) text')
  := by
  have hput := eq_put_of_write? h
  rw [write?, Option.ite_none_right_eq_some, Bool.and_eq_true, Bool.not_eq_true'] at h
  obtain ⟨⟨hpath, -⟩, -⟩ := h
  rw [write?, if_pos]
  rw [Bool.and_eq_true, Bool.not_eq_true']
  refine ⟨hpath, ?_⟩
  -- the file itself lies in the directory now
  have hmem : (Path.ofText name, text) ∈ files'.entries := by
    rw [hput]
    exact List.mem_cons_self
  have hne : Path.ofText name ≠ (Path.ofText name).dropLast := by
    intro heq
    have hlength := congrArg List.length heq
    rw [List.length_dropLast] at hlength
    have hpositive := List.length_pos_iff.mpr (List.isEmpty_eq_false_iff.mp hpath)
    omega
  rw [hasDirectory, Bool.or_eq_true]
  right
  rw [List.any_eq_true]
  refine ⟨_, hmem, ?_⟩
  rw [Bool.and_eq_true, bne_iff_ne, List.isPrefixOf_iff_prefix]
  exact ⟨List.dropLast_prefix _, hne⟩

end Files

namespace Command

/-! ### Steps of a command -/

/-- Notes are written to no file. -/
theorem log_eq_ok (notes : List Note) (w : World) :
  ∃ w', log notes w = .ok () w' ∧ w'.files = w.files
  := by
  have hget : (get : Action World) w = .ok w w := by
    rfl
  rw [log, bind_of_ok hget]
  cases w.verbose with
  | true => exact ⟨_, rfl, rfl⟩
  | false => exact ⟨w, rfl, rfl⟩

/-- A compilation in a session that has just been started has its result, and changes no file. -/
theorem stepping_compiling {α : Type} (c : Compile α) (w : World) :
  (∀ a, c.result .default = .ok a → ∃ s w',
      stepping (Session.compiling c) (.ofNamespace []) w = .ok (a, s) w' ∧ w'.files = w.files)
    ∧ ∀ e, c.result .default = .error e → ∃ w',
      stepping (Session.compiling c) (.ofNamespace []) w = .error (.failed e) w'
        ∧ w'.files = w.files
  := by
  unfold Compile.result stepping Session.compiling Session.ofNamespace
  dsimp only [EStateM.run]
  cases c ⟨.default, []⟩ with
  | ok b p =>
    obtain ⟨w', hlog, hfiles⟩ := log_eq_ok p.notes.reverse w
    constructor
    · intro a ha
      cases ha
      exact ⟨_, w', bind_of_ok hlog, hfiles⟩
    · intro e he
      contradiction
  | error e' p =>
    obtain ⟨w', hlog, hfiles⟩ := log_eq_ok p.notes.reverse w
    constructor
    · intro a ha
      contradiction
    · intro e he
      cases he
      exact ⟨w', bind_of_ok hlog, hfiles⟩

/-- A file that is there is read. -/
theorem readFile_of_read? {w : World} {name text : String} (h : w.files.read? name = some text) :
  readFile name w = .ok text w
  := by
  have hget : (get : Action World) w = .ok w w := by
    rfl
  rw [readFile, bind_of_ok hget, h]
  rfl

/-- A file that can be written is written. -/
theorem writeFile_of_write? {w : World} {name text : String} {files : Files}
    (h : w.files.write? name text = some files) :
  writeFile name text w = .ok () { w with files := files }
  := by
  have hget : (get : Action World) w = .ok w w := by
    rfl
  rw [writeFile, bind_of_ok hget, h]
  rfl

/-- A step that may fail has its value, or fails with its error. -/
theorem attempt_eq {α : Type} (x : Except Error α) (w : World) :
  attempt x w = match x with
    | .ok a => .ok a w
    | .error e => .error (.failed e) w
  := by
  cases x <;> rfl

/-! ### The whole compilation -/

section CompileTo

variable {params : Parameters} {filename target text : String} {w : World}

/-- A file whose text has no program is not compiled, and no file changes. -/
theorem compileTo_of_no_program
    (hread : w.files.read? filename = some text)
    (h : ∀ program, (compileText params text).result .default ≠ .ok program) :
  ∃ stop w', compileTo params filename target w = .error stop w' ∧ w'.files = w.files
  := by
  rw [compileTo, bind_of_ok (readFile_of_read? hread)]
  cases hresult : (compileReading params (Tree.readStream text)).result .default with
  | ok program =>
    obtain ⟨p, hp⟩ := result_eq_ok.mp hresult
    have hprogram := result_eq_ok.mpr ⟨p, compileReading_eq_ok_iff.mp hp⟩
    exact absurd hprogram (h program)
  | error e =>
    obtain ⟨w', hstepping, hfiles⟩ := (stepping_compiling _ w).2 e hresult
    exact ⟨.failed e, w', bind_of_error hstepping, hfiles⟩

/-- For a file whose text has a program the file for the module is opened, without any change to the
files before. -/
theorem compileTo_eq_of_program
    (target : String) (hread : w.files.read? filename = some text) {program : Tree}
    (h : (compileText params text).result .default = .ok program) :
  ∃ w', w'.files = w.files ∧ compileTo params filename target w
    = (do
        writeFile target ""
        let library ← attempt params.moduleName
        let source ← attempt (program.emitProgram library)
        writeFile target source) w'
  := by
  obtain ⟨p, hp⟩ := result_eq_ok.mp h
  have hreading := result_eq_ok.mpr ⟨p, compileReading_eq_ok_iff.mpr hp⟩
  obtain ⟨s, w₁, hstepping, hfiles₁⟩ := (stepping_compiling _ w).1 program hreading
  obtain ⟨w₂, hlog, hfiles₂⟩ := log_eq_ok [.writing target] w₁
  refine ⟨w₂, hfiles₂.trans hfiles₁, ?_⟩
  rw [compileTo, bind_of_ok (readFile_of_read? hread), bind_of_ok hstepping]
  exact bind_of_ok hlog

/-- A file whose text has a program is opened for the module, and then the module is emitted and
written. -/
theorem compileTo_of_program
    (hread : w.files.read? filename = some text) {files : Files}
    (hwrite : w.files.write? target "" = some files) {program : Tree}
    (h : (compileText params text).result .default = .ok program) :
  ∃ w', w'.files = files ∧ compileTo params filename target w
    = (do
        let library ← attempt params.moduleName
        let source ← attempt (program.emitProgram library)
        writeFile target source) w'
  := by
  obtain ⟨w₁, hfiles, heq⟩ := compileTo_eq_of_program target hread h
  rw [← hfiles] at hwrite
  refine ⟨{ w₁ with files := files }, rfl, ?_⟩
  rw [heq]
  exact bind_of_ok (writeFile_of_write? hwrite)

/-- A file whose text has a source is compiled to it. -/
theorem compileTo_of_source
    (hread : w.files.read? filename = some text) {files : Files}
    (hwrite : w.files.write? target "" = some files) {source : String}
    (h : (compileToSource params text).result .default = .ok source) :
  ∃ w', compileTo params filename target w = .ok () w'
    ∧ w'.files = files.put (Path.ofText target) source
  := by
  obtain ⟨program, library, hprogram, hlibrary, hsource⟩ := compileToSource_eq_ok_iff.mp h
  obtain ⟨w₁, rfl, heq⟩ := compileTo_of_program hread hwrite hprogram
  have hlibrary : attempt params.moduleName w₁ = .ok library w₁ := by
    rw [attempt_eq, hlibrary]
  have hsource : attempt (program.emitProgram library) w₁ = .ok source w₁ := by
    rw [attempt_eq, hsource]
  rw [heq, bind_of_ok hlibrary, bind_of_ok hsource]
  exact ⟨_, writeFile_of_write? (Files.write?_put hwrite source), rfl⟩

/-- A file whose text has no source is not compiled. -/
theorem compileTo_of_no_source
    (hread : w.files.read? filename = some text) {files : Files}
    (hwrite : w.files.write? target "" = some files) {e : Error}
    (h : (compileToSource params text).result .default = .error e) :
  ∃ stop w', compileTo params filename target w = .error stop w'
  := by
  have hnone : ∀ source, (compileToSource params text).result .default ≠ .ok source := by
    rw [h]
    intro source hsource
    contradiction
  cases hprogram : (compileText params text).result .default with
  | error e' =>
    have hnone : ∀ program, (compileText params text).result .default ≠ .ok program := by
      rw [hprogram]
      intro program hok
      contradiction
    obtain ⟨stop, w', hstop, -⟩ := compileTo_of_no_program hread hnone
    exact ⟨stop, w', hstop⟩
  | ok program =>
    obtain ⟨w₁, -, heq⟩ := compileTo_of_program hread hwrite hprogram
    rw [heq]
    cases hlibrary : params.moduleName with
    | error e' => exact ⟨.failed e', w₁, bind_of_error (attempt_eq _ w₁)⟩
    | ok library =>
      rw [bind_of_ok (attempt_eq (.ok library) w₁)]
      cases hsource : program.emitProgram library with
      | error e' => exact ⟨.failed e', w₁, bind_of_error (attempt_eq _ w₁)⟩
      | ok source =>
        have hok := compileToSource_eq_ok_iff.mpr ⟨program, library, hprogram, hlibrary, hsource⟩
        exact absurd hok (hnone source)

end CompileTo

/-- **Compiling a file is compiling its text.** Let a file have a text, with its line ends read
alike, and let the file for the module be one that can be written. For any parameters, compiling
the file fails just when compiling the text fails; and otherwise the file for the module holds
exactly the source of the text's module, while every other file is as it was. -/
theorem compileTo_agrees
    (params : Parameters) {filename target text : String} {w : World}
    (hread : w.files.read? filename = some text) (hwrite : (w.files.write? target "").isSome) :
  ((∃ stop w', compileTo params filename target w = .error stop w')
      ↔ ∃ e, (compileToSource params text).result .default = .error e)
    ∧ ∀ source, (compileToSource params text).result .default = .ok source →
      ∃ w', compileTo params filename target w = .ok () w'
        ∧ w'.files.entries.lookup (Path.ofText target) = some source
        ∧ ∀ path, path ≠ Path.ofText target →
          w'.files.entries.lookup path = w.files.entries.lookup path
  := by
  obtain ⟨files, hfiles⟩ := Option.isSome_iff_exists.mp hwrite
  constructor
  · constructor
    · rintro ⟨stop, w', hstop⟩
      cases hresult : (compileToSource params text).result .default with
      | error e => exact ⟨e, rfl⟩
      | ok source =>
        obtain ⟨w'', hok, -⟩ := compileTo_of_source hread hfiles hresult
        rw [hok] at hstop
        contradiction
    · rintro ⟨e, he⟩
      exact compileTo_of_no_source hread hfiles he
  · intro source hsource
    obtain ⟨w', hok, hfiles'⟩ := compileTo_of_source hread hfiles hsource
    refine ⟨w', hok, ?_, ?_⟩
    · rw [hfiles', Files.lookup_put, if_pos rfl]
    · intro path hpath
      rw [hfiles', Files.lookup_put, if_neg hpath, Files.eq_put_of_write? hfiles, Files.lookup_put,
        if_neg hpath]

/-- A file with three kinds of line ends, and one in which a name is defined twice before a bracket is
closed that was not opened. -/
def lispFiles : Files :=
  .ofList [("double.lisp", "(defn double (x)\r\n(+ x x))\r(double 4)\n"),
    ("twice.lisp", "(defn f () 1) (defn f () 2) )")]

/-- The first file is compiled to the source of its text, and the second is not compiled. -/
theorem compileTo_agrees_lispFiles :
  (∃ source w',
      (compileToSource {} "(defn double (x)\n(+ x x))\n(double 4)\n").result .default = .ok source
        ∧ compileTo {} "double.lisp" "double.py" { files := lispFiles } = .ok () w'
        ∧ w'.files.entries.lookup ["double.py"] = some source)
    ∧ ∃ e stop w',
      (compileToSource {} "(defn f () 1) (defn f () 2) )").result .default = .error e
        ∧ compileTo {} "twice.lisp" "twice.py" { files := lispFiles } = .error stop w'
  := by
  constructor
  · have hread : lispFiles.read? "double.lisp"
        = some "(defn double (x)\n(+ x x))\n(double 4)\n" := by
      decide +kernel
    have hwrite : (lispFiles.write? "double.py" "").isSome := by
      decide +kernel
    obtain ⟨source, hsource⟩ := @exists_of_isOk _ ((compileToSource {}
      "(defn double (x)\n(+ x x))\n(double 4)\n").result .default) (by decide +kernel)
    obtain ⟨w', hcompiled, hfile, -⟩ :=
      (compileTo_agrees {} (w := { files := lispFiles }) hread hwrite).2 source hsource
    exact ⟨source, w', hsource, hcompiled, hfile⟩
  · have hread : lispFiles.read? "twice.lisp" = some "(defn f () 1) (defn f () 2) )" := by
      decide +kernel
    have hwrite : (lispFiles.write? "twice.py" "").isSome := by
      decide +kernel
    obtain ⟨e, he⟩ := @exists_of_not_isOk _ ((compileToSource {}
      "(defn f () 1) (defn f () 2) )").result .default) (by decide +kernel)
    obtain ⟨stop, w', hstop⟩ :=
      (compileTo_agrees {} (w := { files := lispFiles }) hread hwrite).1.mpr ⟨e, he⟩
    exact ⟨e, stop, w', he, hstop⟩

end Command

end Springboard
