import Springboard.Proofs.Destination
import Springboard.Proofs.Reading

/-!
# What a failed compilation leaves behind

The file for the module is opened before the module is rendered. Main statement: where compiling a
file fails earlier, no file changes; where rendering fails, the file for the module is left empty,
whatever it held before, and no other file changes. Rendering fails just when the module of the
helpers cannot be named or the program has an integer with too many digits.
-/

namespace Springboard

open Compile

/-! ### Rendering -/

/-- An entry without a name is used for no form, so that another one does as well. -/
theorem wrapEntry_of_unnamed {entry : Tree} (hentry : ∀ s, entry ≠ .text s) (entry' : Tree)
    {form defn : Tree} (h : form.wrapEntry entry = .ok defn) :
  form.wrapEntry entry' = .ok defn
  := by
  rw [Tree.wrapEntry] at h ⊢
  cases hform : form.isDefinition with
  | true =>
    rw [hform] at h
    exact h
  | false =>
    rw [hform] at h
    cases entry with
    | text s => exact absurd rfl (hentry s)
    | _ => contradiction

/-- Forms that are compiled with an entry without a name are compiled alike with any other. -/
theorem compileDefinitions_of_unnamed {entry : Tree} (hentry : ∀ s, entry ≠ .text s)
    (entry' : Tree) {ak : String} {seen : List String} {forms ts : List Tree} {p p' : Progress}
    (h : compileDefinitions entry ak seen forms p = .ok ts p') :
  compileDefinitions entry' ak seen forms p = .ok ts p'
  := by
  induction forms generalizing seen ts p p' with
  | nil => exact h
  | cons form forms ih =>
    rw [compileDefinitions, bind_eq_ok] at h ⊢
    obtain ⟨defn, p₁, hdefn, h⟩ := h
    obtain ⟨hwrap, rfl⟩ := attempt_eq_ok.mp hdefn
    refine ⟨defn, p, attempt_eq_ok.mpr ⟨wrapEntry_of_unnamed hentry entry' hwrap, rfl⟩, ?_⟩
    dsimp only at h ⊢
    split at h
    · exact absurd h throw_ne_ok
    rename_i hunseen
    rw [if_neg hunseen]
    simp only [bind_eq_ok, pure_eq_ok] at h ⊢
    obtain ⟨u, p₂, hnote, first, p₃, hfirst, rest, p₄, hrest, hts, hp⟩ := h
    exact ⟨u, p₂, hnote, first, p₃, hfirst, rest, p₄, ih hrest, hts, hp⟩

/-- A text that is read is compiled by compiling its forms. -/
theorem result_compileText {text : String} {forms : List Tree} (h : Tree.readAll text = .ok forms)
    {params : Parameters} {names : NameSource} :
  (compileText params text).result names = (compileForms params forms).result names
  := by
  have hforms : attempt (Tree.readAll text) ⟨names, []⟩ = .ok forms ⟨names, []⟩ := by
    exact attempt_eq_ok.mpr ⟨h, rfl⟩
  rw [Compile.result, Compile.result, EStateM.run, EStateM.run, compileText, bind_of_ok hforms]

/-- The program of a text is its program for an entry with some name. -/
theorem exists_entry_of_compileText {params : Parameters} {text : String} {names : NameSource}
    {program : Tree} (h : (compileText params text).result names = .ok program) :
  ∃ entry, (compileText ⟨.text entry, params.runtime⟩ text).result names = .ok program
  := by
  by_cases hentry : ∃ s, params.entry = .text s
  · obtain ⟨s, hs⟩ := hentry
    use s
    rwa [← hs]
  · rw [not_exists] at hentry
    use "main"
    simp only [result_eq_ok, compileText, compileForms, compileReading, bind_eq_ok] at h ⊢
    obtain ⟨p, forms, p₁, hforms, helpers, p₂, hhelpers, definitions, p₃, hdefinitions, h⟩ := h
    exact ⟨p, forms, p₁, hforms, helpers, p₂, hhelpers, definitions, p₃,
      compileDefinitions_of_unnamed hentry _ hdefinitions, h⟩

/-- The program of a text is written if its integers are short, and otherwise writing it fails because
of too many digits. -/
theorem emitProgram_of_compileText {params : Parameters} {text : String} {names : NameSource}
    {program : Tree} (h : (compileText params text).result names = .ok program)
    (library : String) :
  (program.HasShortIntegers ∧ ∃ source, program.emitProgram library = .ok source)
    ∨ (¬ program.HasShortIntegers ∧ program.emitProgram library = .error (.fault .tooManyDigits))
  := by
  obtain ⟨entry, hentry⟩ := exists_entry_of_compileText h
  obtain ⟨forms, es, -, rfl, hforms⟩ := entries_of_compileText hentry
  apply Tree.emitProgram_cases
  intro e he
  obtain ⟨form, -, hform⟩ := exists_of_mem_right hforms he
  exact ⟨_, hform⟩

/-! ### A long integer -/

/-- A one and zeros behind it, as a hexadecimal numeral. -/
def hexPower (n : Nat) : List Char :=
  '0' :: 'x' :: '1' :: Number.zeros n

/-- Zeros are read as digits, of which none counts. -/
theorem hexValues_zeros (n : Nat) :
  (Number.zeros n).mapM Text.hexValue? = some (List.replicate n 0)
  := by
  induction n with
  | zero => rfl
  | succ n ih =>
    have hzero : Text.hexValue? '0' = some 0 := by
      decide +kernel
    rw [Number.zeros] at ih ⊢
    rw [List.replicate_succ, List.mapM_cons, hzero, ih]
    rfl

/-- A one and zeros denote a power of the base. -/
theorem ofDigits_one_zeros (base n : Nat) :
  Text.ofDigits base (1 :: List.replicate n 0) = base ^ n
  := by
  induction n with
  | zero => rfl
  | succ n ih =>
    rw [List.replicate_succ', ← List.cons_append, Text.ofDigits, List.foldl_append, ← Text.ofDigits, ih,
      Nat.pow_succ']
    rfl

/-- The numeral consists of three kinds of characters. -/
theorem of_mem_hexPower {n : Nat} {c : Char} (h : c ∈ hexPower n) :
  c = '0' ∨ c = 'x' ∨ c = '1'
  := by
  simp only [hexPower, List.mem_cons, Number.zeros, List.mem_replicate] at h
  tauto

/-- The numeral has no sign. -/
theorem splitSign_hexPower (n : Nat) : Number.splitSign (hexPower n) = (false, hexPower n) := by
  rfl

/-- The second character keeps the numeral from being a decimal one. -/
theorem digits?_hexPower (n : Nat) : Number.digits? Text.digitValue? (hexPower n) = none := by
  have hzero : Text.digitValue? '0' = some 0 := by
    decide +kernel
  have hmark : Text.digitValue? 'x' = none := by
    decide +kernel
  rw [hexPower, Number.digits?, List.isEmpty_cons, if_neg Bool.false_ne_true, List.mapM_cons,
    hzero, List.mapM_cons, hmark]
  rfl

/-- The numeral is read as a power of sixteen. -/
theorem read?_hexPower (n : Nat) :
  Number.read? (String.ofList (hexPower n)) = some (.ok (.int ((16 ^ n : Nat) : Int)))
  := by
  have hone : Text.hexValue? '1' = some 1 := by
    decide +kernel
  have hne : ∀ word : String, word.toList.head? ≠ some '0' →
      (String.ofList (hexPower n) == word) = false := by
    intro word hword
    rw [beq_eq_false_iff_ne]
    rintro rfl
    rw [String.toList_ofList] at hword
    exact hword rfl
  have hint : Number.readInt? (hexPower n) = none := by
    rw [Number.readInt?, splitSign_hexPower]
    simp only [digits?_hexPower]
    rfl
  have hhex : Number.readHex? (hexPower n) = some (.int ((16 ^ n : Nat) : Int)) := by
    rw [Number.readHex?, splitSign_hexPower, hexPower]
    simp only
    rw [Number.digits?, List.isEmpty_cons, if_neg Bool.false_ne_true, List.mapM_cons, hone,
      hexValues_zeros]
    exact congrArg (fun n : Nat => some (Number.int n)) (ofDigits_one_zeros 16 n)
  rw [Number.read?, hne "true" (by decide), hne "false" (by decide), if_neg Bool.false_ne_true,
    if_neg Bool.false_ne_true, String.toList_ofList]
  simp only [hint, hhex]
  rfl

/-- The numeral is one word. -/
def hexWord (n : Nat) : Word where
  chars := hexPower n
  ne_nil := List.cons_ne_nil _ _
  isAtomChar_of_mem := by
    intro c hc
    obtain rfl | rfl | rfl := of_mem_hexPower hc <;> decide +kernel

/-- A text that consists of the numeral is read as one literal. -/
theorem readAll_hexPower (n : Nat) :
  Tree.readAll (String.ofList (hexPower n)) = .ok [.literal (.int ((16 ^ n : Nat) : Int))]
  := by
  have hshort : ∀ word, .atom word ∈ Outline.tokensAll [.atom (hexWord n)] → word.IsShort := by
    intro word hword
    cases List.mem_singleton.mp hword
    intro digits hdigits
    rw [hexWord, splitSign_hexPower, digits?_hexPower] at hdigits
    contradiction
  have hwrite : Outline.Write [.atom (hexWord n)] (String.ofList (hexPower n)) := by
    refine ⟨[.token (.atom (hexWord n))], [], ?_, rfl, .inl rfl, ?_⟩
    · simp [Separated]
    · rw [String.toList_ofList]
      simp [charsOf, Segment.chars, Token.chars, hexWord]
  obtain ⟨fs, hfs, hforms⟩ := exists_forms_of_write hshort hwrite
  have hform : Outline.forms [.atom (hexWord n)]
      = .ok [.number (.int ((16 ^ n : Nat) : Int))] := by
    rw [Outline.forms, Outline.form, Form.ofAtom]
    simp only [hexWord, read?_hexPower]
    rfl
  rw [hform] at hforms
  have hunplaced := (Except.ok.inj hforms).symm
  obtain ⟨hitems, hending⟩ := readForms_unplacedAll fs
  rw [hunplaced] at hitems hending
  rw [readAll_eq_ok, Tree.readStream, hfs]
  exact ⟨hending.mp rfl, hitems.symm⟩

namespace Command

/-! ### The files after a failure -/

/-- A file that is not there is not read. -/
theorem readFile_of_none {w : World} {name : String} (h : w.files.read? name = none) :
  readFile name w = .error (.failed (.fault .missingFile)) w
  := by
  have hget : (get : Action World) w = .ok w w := by
    rfl
  rw [readFile, bind_of_ok hget, h]
  rfl

/-- A file that cannot be written is not written. -/
theorem writeFile_of_none {w : World} {name text : String} (h : w.files.write? name text = none) :
  writeFile name text w = .error (.failed (.fault .missingFile)) w
  := by
  have hget : (get : Action World) w = .ok w w := by
    rfl
  rw [writeFile, bind_of_ok hget, h]
  rfl

/-- The file can be read and compiled, and the file for the module can be opened, but the module cannot
be rendered: either its helpers' module has no name, or an integer has too many digits. -/
def FailsToRender (params : Parameters) (filename target : String) (w : World) (e : Error) : Prop :=
  ∃ text program, w.files.read? filename = some text
    ∧ (compileText params text).result .default = .ok program
    ∧ (w.files.write? target "").isSome
    ∧ (params.moduleName = .error e
      ∨ (∃ library, params.moduleName = .ok library) ∧ ¬ program.HasShortIntegers
        ∧ e = .fault .tooManyDigits)

section Failure

variable {params : Parameters} {filename target : String} {w : World}

/-- Where the module cannot be rendered, the file for it is empty and no other file changes. -/
theorem compileTo_of_failsToRender {e : Error} (h : FailsToRender params filename target w e) :
  ∃ w', compileTo params filename target w = .error (.failed e) w'
    ∧ w'.files = w.files.put (Path.ofText target) ""
  := by
  obtain ⟨text, program, hread, hprogram, hwrite, hfails⟩ := h
  obtain ⟨files, hfiles⟩ := Option.isSome_iff_exists.mp hwrite
  obtain ⟨w₁, hw₁, heq⟩ := compileTo_of_program hread hfiles hprogram
  rw [Files.eq_put_of_write? hfiles] at hw₁
  refine ⟨w₁, ?_, hw₁⟩
  rw [heq]
  obtain hlibrary | ⟨⟨library, hlibrary⟩, hlong, rfl⟩ := hfails
  · rw [hlibrary]
    exact bind_of_error (attempt_eq _ w₁)
  · obtain ⟨hshort, -⟩ | ⟨-, herror⟩ := emitProgram_of_compileText hprogram library
    · exact absurd hshort hlong
    · rw [hlibrary, bind_of_ok (attempt_eq (.ok library) w₁), herror]
      exact bind_of_error (attempt_eq _ w₁)

/-- Where compiling fails for another reason, no file changes. -/
theorem files_of_compileTo_error (hrenders : ∀ e, ¬ FailsToRender params filename target w e)
    {stop : Stop} {w' : World} (h : compileTo params filename target w = .error stop w') :
  w'.files = w.files
  := by
  cases hread : w.files.read? filename with
  | none =>
    rw [compileTo, bind_of_error (readFile_of_none hread)] at h
    cases h
    rfl
  | some text =>
    cases hprogram : (compileText params text).result .default with
    | error e =>
      have hnone : ∀ program, (compileText params text).result .default ≠ .ok program := by
        rw [hprogram]
        intro program hok
        contradiction
      obtain ⟨stop', w₁, hstop, hfiles⟩ := compileTo_of_no_program hread hnone
      rw [h] at hstop
      cases hstop
      exact hfiles
    | ok program =>
      cases hwrite : w.files.write? target "" with
      | none =>
        obtain ⟨w₁, hfiles, heq⟩ := compileTo_eq_of_program target hread hprogram
        rw [← hfiles] at hwrite
        rw [heq, bind_of_error (writeFile_of_none hwrite)] at h
        cases h
        exact hfiles
      | some files =>
        -- the module is rendered, so nothing fails
        have hwritable : (w.files.write? target "").isSome := by
          rw [hwrite]
          rfl
        cases hlibrary : params.moduleName with
        | error e =>
          exact absurd ⟨text, program, hread, hprogram, hwritable, .inl hlibrary⟩ (hrenders e)
        | ok library =>
          obtain ⟨-, source, hsource⟩ | ⟨hlong, -⟩ := emitProgram_of_compileText hprogram library
          · obtain ⟨w₁, hok, -⟩ := compileTo_of_source hread hwrite
              (compileToSource_eq_ok_iff.mpr ⟨program, library, hprogram, hlibrary, hsource⟩)
            rw [hok] at h
            contradiction
          · exact absurd ⟨text, program, hread, hprogram, hwritable,
              .inr ⟨⟨library, hlibrary⟩, hlong, rfl⟩⟩ (hrenders _)

end Failure

/-- **What a failed compilation leaves behind.** For every file, every file for the module and all
parameters: unless the module cannot be rendered, a compilation that fails leaves all files exactly as
they were. If the module cannot be rendered, the compilation fails for that reason; the file for the
module is then there and empty, whatever it was before, and every other file is as it was. -/
theorem compileTo_failure_leaves
    (params : Parameters) (filename target : String) (w : World) :
  ((∀ e, ¬ FailsToRender params filename target w e) →
      ∀ stop w', compileTo params filename target w = .error stop w' → w'.files = w.files)
    ∧ ∀ e, FailsToRender params filename target w e →
      ∃ w', compileTo params filename target w = .error (.failed e) w'
        ∧ w'.files.entries.lookup (Path.ofText target) = some ""
        ∧ ∀ path, path ≠ Path.ofText target →
          w'.files.entries.lookup path = w.files.entries.lookup path
  := by
  constructor
  · intro hrenders stop w' h
    exact files_of_compileTo_error hrenders h
  · intro e h
    obtain ⟨w', herror, hfiles⟩ := compileTo_of_failsToRender h
    refine ⟨w', herror, ?_, ?_⟩
    · rw [hfiles, Files.lookup_put, if_pos rfl]
    · intro path hpath
      rw [hfiles, Files.lookup_put, if_neg hpath]

/-- Line ends that are line feeds are read as they are. -/
theorem normalizeLineEnds_of_notMem {cs : List Char} (h : '\r' ∉ cs) : normalizeLineEnds cs = cs := by
  induction cs using normalizeLineEnds.induct with
  | case1 => rfl
  | case2 rest ih => exact absurd List.mem_cons_self h
  | case3 rest hrest ih => exact absurd List.mem_cons_self h
  | case4 c rest hc hrest ih =>
    rw [normalizeLineEnds, ih fun hmem => h (List.mem_cons_of_mem c hmem)]
    · exact hc
    · exact hrest

/-- A file with an integer that has too many decimal digits, one in which a name is defined twice, and
a module. -/
def longFiles : Files :=
  .ofList [("long.lisp", String.ofList (hexPower 3600)),
    ("twice.lisp", "(defn f () 1) (defn f () 2)"), ("out.py", "x = 1\n")]

/-- The long integer keeps the first file from being rendered. -/
theorem failsToRender_longFiles :
  FailsToRender {} "long.lisp" "out.py" { files := longFiles } (.fault .tooManyDigits)
  := by
  have hread : longFiles.read? "long.lisp" = some (String.ofList (hexPower 3600)) := by
    have hends : '\r' ∉ hexPower 3600 := by
      intro hmem
      exact absurd (of_mem_hexPower hmem) (by decide)
    rw [Files.read?, longFiles, Files.ofList, List.map_cons, List.lookup_cons_self]
    simp only [Option.bind_eq_bind, Option.bind_some, String.toList_ofList,
      normalizeLineEnds_of_notMem hends]
  have hwrite : (longFiles.write? "out.py" "").isSome := by
    decide +kernel
  obtain ⟨forms, hforms, hcompiles, hemits⟩ : ∃ forms,
      Tree.readAll (String.ofList (hexPower 3600)) = .ok forms
        ∧ ((compileForms {} forms).result .default).isOk
        ∧ (((compileForms {} forms).result .default).bind (·.emitProgram defaultModule)).isOk
          = false := by
    exact ⟨_, readAll_hexPower 3600, by decide +kernel, by decide +kernel⟩
  obtain ⟨program, hprogram⟩ := exists_of_isOk hcompiles
  rw [hprogram] at hemits
  rw [← result_compileText hforms] at hprogram
  obtain ⟨-, source, hsource⟩ | ⟨hlong, -⟩ := emitProgram_of_compileText hprogram defaultModule
  · rw [Except.bind, hsource] at hemits
    exact absurd hemits.symm Bool.false_ne_true
  · exact ⟨_, program, hread, hprogram, hwrite, .inr ⟨⟨_, rfl⟩, hlong, rfl⟩⟩

/-- A name that is defined twice leaves the module as it was, and a long integer leaves nothing of it. -/
theorem compileTo_failure_leaves_longFiles :
  longFiles.entries.lookup (Path.ofText "out.py") = some "x = 1\n"
    ∧ (∃ stop w', compileTo {} "twice.lisp" "out.py" { files := longFiles } = .error stop w'
      ∧ w'.files = longFiles)
    ∧ ∃ w', compileTo {} "long.lisp" "out.py" { files := longFiles }
        = .error (.failed (.fault .tooManyDigits)) w'
      ∧ w'.files.entries.lookup (Path.ofText "out.py") = some ""
  := by
  refine ⟨by decide +kernel, ?_, ?_⟩
  · have hread : longFiles.read? "twice.lisp" = some "(defn f () 1) (defn f () 2)" := by
      decide +kernel
    obtain ⟨e, he⟩ := @exists_of_not_isOk _ ((compileText {}
      "(defn f () 1) (defn f () 2)").result .default) (by decide +kernel)
    have hnone : ∀ program,
        (compileText {} "(defn f () 1) (defn f () 2)").result .default ≠ .ok program := by
      rw [he]
      intro program hok
      cases hok
    have hrenders : ∀ e, ¬ FailsToRender {} "twice.lisp" "out.py" { files := longFiles } e := by
      rintro e ⟨text, program, hread', hprogram, -⟩
      cases hread.symm.trans hread'
      exact hnone program hprogram
    obtain ⟨stop, w', hstop, -⟩ :=
      compileTo_of_no_program (w := { files := longFiles }) hread hnone
    exact ⟨stop, w', hstop, (compileTo_failure_leaves _ _ _ _).1 hrenders stop w' hstop⟩
  · obtain ⟨w', herror, hempty, -⟩ :=
      (compileTo_failure_leaves _ _ _ _).2 _ failsToRender_longFiles
    exact ⟨w', herror, hempty⟩

end Command

end Springboard
