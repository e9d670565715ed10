import Springboard.Proofs.Compilation
import Springboard.Proofs.Renumbering
import Springboard.Proofs.Retention

/-!
# Names in the emitted text

Names come from the text and from the parameters of a compilation, and can be any texts; what is
emitted is run. Main statement: the identifier of a name is an identifier and no reserved word, and
it is its own identifier; and the text that is emitted for a tree is the text for the same tree with
identifiers in the places of all its names. So a name has no way into the text but as an identifier.
-/

namespace Springboard

/-- The identifier of an identifier is itself. -/
theorem mangle_mangle (name : String) : mangle (mangle name) = mangle name := by
  apply mangle_of_isPlain
  apply isPlain_mangle

/-! ### All names of a tree -/

namespace Tree

mutual

/-- All names of a tree: those that `mapNames` changes. -/
def labels : Tree → List String
  | var name => [name]
  | operation _ operands => labelsAll operands
  | conditional _ test conseq alt => labels test ++ labels conseq ++ labels alt
  | abstraction params body => params ++ labels body
  | definition name params body own => name :: params ++ labels body ++ own.toList
  | continuation arg body => arg :: labels body
  | resumption k arg => labels k ++ labels arg
  | application rator rands => labels rator ++ labelsAll rands
  | entry name params k flag inner => name :: params ++ [k, flag] ++ labels inner
  | program definitions helpers => labelsAll definitions ++ helpers.map Prod.snd
  | list items | tuple items => labelsAll items
  | blank | literal _ | nothing | number _ | text _ => []

/-- All names of some trees. -/
def labelsAll : List Tree → List String
  | [] => []
  | t :: ts => labels t ++ labelsAll ts

end

mutual

/-- Changing the names of a tree changes each of its names. -/
theorem labels_mapNames (f : String → String) :
    ∀ t : Tree, (t.mapNames f).labels = t.labels.map f
  | .blank | .literal _ | .nothing | .number _ | .text _ => by
      rw [mapNames, labels, List.map_nil]
  | .var name => by
      rw [mapNames, labels, labels, List.map_singleton]
  | .operation _ ts | .list ts | .tuple ts => by
      rw [mapNames, labels, labels, labelsAll_mapNamesAll f ts]
  | .conditional _ test conseq alt => by
      rw [mapNames, labels, labels, labels_mapNames f test, labels_mapNames f conseq,
        labels_mapNames f alt, List.map_append, List.map_append]
  | .abstraction _ body => by
      rw [mapNames, labels, labels, labels_mapNames f body, List.map_append]
  | .definition _ _ body own => by
      rw [mapNames, labels, labels, labels_mapNames f body]
      cases own <;> simp
  | .continuation _ body => by
      rw [mapNames, labels, labels, labels_mapNames f body, List.map_cons]
  | .resumption k arg => by
      rw [mapNames, labels, labels, labels_mapNames f k, labels_mapNames f arg, List.map_append]
  | .application rator rands => by
      rw [mapNames, labels, labels, labels_mapNames f rator, labelsAll_mapNamesAll f rands,
        List.map_append]
  | .entry _ _ _ _ inner => by
      rw [mapNames, labels, labels, labels_mapNames f inner]
      simp
  | .program definitions helpers => by
      rw [mapNames, labels, labels, labelsAll_mapNamesAll f definitions]
      simp

/-- Changing the names of some trees changes each of their names. -/
theorem labelsAll_mapNamesAll (f : String → String) :
    ∀ ts : List Tree, labelsAll (mapNamesAll f ts) = (labelsAll ts).map f
  | [] => by
      rw [mapNamesAll, labelsAll, List.map_nil]
  | t :: ts => by
      rw [mapNamesAll, labelsAll, labelsAll, labels_mapNames f t, labelsAll_mapNamesAll f ts,
        List.map_append]

end

/-- With identifiers in the places of its names a tree has identifiers only. -/
theorem isPlain_of_mem_labels {t : Tree} {x : String} (hx : x ∈ (t.mapNames mangle).labels) :
  IsPlain x
  := by
  rw [labels_mapNames, List.mem_map] at hx
  obtain ⟨name, -, rfl⟩ := hx
  apply isPlain_mangle

/-- The name of a tree is changed. -/
theorem name?_mapNames (f : String → String) (t : Tree) :
  (t.mapNames f).name? = t.name?.map f
  := by
  cases t <;> rw [mapNames] <;> rfl

/-- A literal stays one. -/
theorem isLiteral_mapNames (f : String → String) (t : Tree) :
  (t.mapNames f).isLiteral = t.isLiteral
  := by
  cases t <;> rw [mapNames] <;> rfl

end Tree

/-- The names of the helpers changed. -/
def HelperTable.mapNames (f : String → String) (table : HelperTable) : HelperTable :=
  table.map fun h => (h.1, f h.2)

/-- The name under a role is changed. -/
theorem HelperTable.lookup_mapNames (f : String → String) (table : HelperTable) (role : String) :
  (table.mapNames f).reverse.lookup role = (table.reverse.lookup role).map f
  := by
  rw [mapNames, ← List.map_reverse]
  induction table.reverse with
  | nil => rfl
  | cons h table ih =>
    rw [List.map_cons, List.lookup_cons, List.lookup_cons, ih]
    split <;> rfl

/-! ### Texts without names -/

section Steps

variable {f : String → String}

/-- A fault is about no tree. -/
theorem renamed_ofFault {α : Type} (x : Except Fault α) :
  Renamed f id (Error.ofFault x) (Error.ofFault x)
  := by
  cases x <;> rfl

/-- A text or a fault does not depend on names. -/
theorem renamed_expression (piece : Piece) : Renamed f id piece.expression piece.expression := by
  cases piece <;> rfl

/-- The text of a number does not depend on names. -/
theorem renamed_literalText (value : Number) :
  Renamed f id (literalText value) (literalText value)
  := by
  apply Renamed.bind (renamed_ofFault value.text)
  intro shown
  cases value <;> exact Renamed.ok rfl

/-- Steps for the items of a list agree if they do for each item. -/
theorem renamed_mapM {α β : Type} {step : α → Except Error β} {g : α → α}
    (h : ∀ a, Renamed f id (step a) (step (g a))) (xs : List α) :
  Renamed f id (xs.mapM step) ((xs.map g).mapM step)
  := by
  induction xs with
  | nil => exact Renamed.ok rfl
  | cons x xs ih =>
    rw [List.map_cons, List.mapM_cons, List.mapM_cons]
    apply Renamed.bind (h x)
    intro first
    apply Renamed.bind ih
    intro rest
    exact Renamed.ok rfl

/-- The texts of some expressions do not depend on names. -/
theorem renamed_mapM_expression (pieces : List Piece) :
  Renamed f id (pieces.mapM Piece.expression) (pieces.mapM Piece.expression)
  := by
  have h := renamed_mapM (f := f) (g := id) renamed_expression pieces
  rwa [List.map_id] at h

/-- Outcomes that agree have the same values. -/
theorem Renamed.ok_iff {α : Type} {x y : Except Error α} (h : Renamed f id x y) (a : α) :
  x = .ok a ↔ y = .ok a
  := by
  cases x <;> cases h <;> simp

/-- A function of values that agree has values that agree. -/
theorem Renamed.map {α β : Type} {g : α → α} {x y : Except Error α} (hx : Renamed f g x y)
    {h : α → β} (hh : ∀ a, h (g a) = h a) :
  Renamed f id (x.map h) (y.map h)
  := by
  cases x with
  | ok a =>
    cases hx
    exact Renamed.ok (hh a)
  | error e =>
    cases hx
    rfl

/-! ### Steps of emission -/

/-- The second step does with changed names of the helpers what the first does with the names. -/
def Agrees {α : Type} (f : String → String) (x y : Emit α) : Prop :=
  ∀ table : HelperTable,
    Renamed f (fun r => (r.1, HelperTable.mapNames f r.2)) (x table) (y (table.mapNames f))

namespace Agrees

variable {α β : Type}

/-- A value agrees with itself. -/
theorem pure {a b : α} (h : b = a) : Agrees f (pure a) (pure b) := by
  intro table
  rw [h]
  exact Renamed.ok rfl

/-- An error is changed. -/
theorem throw (e : Error) :
  Agrees f (throw e : Emit α) (throw (e.mapNames f))
  := by
  intro table
  exact Renamed.error e

/-- Steps that do not look at the helpers agree as their outcomes do. -/
theorem lift {x y : Except Error α} (h : Renamed f id x y) :
  Agrees f (liftM x : Emit α) (liftM y)
  := by
  intro table
  cases x <;> cases h <;> rfl

/-- Steps agree one after the other. -/
theorem bind {x y : Emit α} {h h' : α → Emit β} (hx : Agrees f x y)
    (hh : ∀ a, Agrees f (h a) (h' a)) :
  Agrees f (x >>= h) (y >>= h')
  := by
  intro table
  apply Renamed.bind (hx table)
  intro r
  apply hh r.1

/-- Steps that agree have values that agree. -/
theorem run' {x y : Emit α} (h : Agrees f x y) (table : HelperTable) :
  Renamed f id (x.run' table) (y.run' (table.mapNames f))
  := by
  apply Renamed.map (h table)
  intro r
  rfl

/-- Other helpers can be put in force. -/
theorem set (table : HelperTable) :
  Agrees f (set table : Emit PUnit) (set (table.mapNames f))
  := by
  intro _
  exact Renamed.ok rfl

end Agrees

/-! ### Emission -/

/-- The names are changed to others with the same identifiers. -/
def KeepsIdents (f : String → String) : Prop :=
  ∀ x, mangle (f x) = mangle x

/-- In a row of names each keeps its identifier. -/
theorem KeepsIdents.map_mangle_map (hf : KeepsIdents f) (params : List String) :
  (params.map f).map mangle = params.map mangle
  := by
  rw [List.map_map]
  apply List.map_congr_left
  intro x _
  apply hf

/-- The identifier of a helper is that of its name. -/
theorem agrees_helperIdent (hf : KeepsIdents f) (helper : Helper) :
  Agrees f (helperIdent helper) (helperIdent helper)
  := by
  intro table
  rw [helperIdent, helperIdent, HelperTable.lookup_mapNames]
  cases table.reverse.lookup helper.role with
  | none => rfl
  | some name =>
    rw [Option.map_some]
    dsimp only
    rw [hf]
    apply Renamed.ok
    dsimp only

/-- An import has the identifiers of the helpers. -/
theorem renamed_importLines (hf : KeepsIdents f) (source : String) (table : HelperTable) :
  Renamed f id (importLines source table) (importLines source (table.mapNames f))
  := by
  rw [importLines, importLines, HelperTable.mapNames]
  apply Renamed.bind
  · apply renamed_mapM
    intro h
    dsimp only
    rw [hf]
    cases Helper.ofRole? h.1 <;> rfl
  · intro names
    exact Renamed.ok rfl

/-- Parameters are written as their identifiers. -/
theorem lambdaText_map (hf : KeepsIdents f) (params : List String) (body : String) :
  lambdaText (params.map f) body = lambdaText params body
  := by
  rw [lambdaText, lambdaText, paramsText, paramsText, hf.map_mangle_map, List.isEmpty_map]

/-- A definition is written with the identifiers of its name and its parameters. -/
theorem definitionLines_map (hf : KeepsIdents f) (name : String) (params : List String)
    (body : String) :
  definitionLines (f name) (params.map f) body = definitionLines name params body
  := by
  rw [definitionLines, definitionLines, paramsText, paramsText, hf.map_mangle_map, hf]

/-- An entry is written with the identifiers of its names. -/
theorem entryLines_map (hf : KeepsIdents f) (name : String) (params : List String)
    (k flag inner identity makeFlag trampoline : String) (innerLines : List String) :
  entryLines (f name) (params.map f) (f k) (f flag) (f inner) identity makeFlag trampoline
      innerLines
    = entryLines name params k flag inner identity makeFlag trampoline innerLines
  := by
  simp only [entryLines, hf.map_mangle_map, hf name, hf k, hf flag, hf inner]

namespace Tree

mutual

/-- Emission looks at names only through their identifiers. -/
theorem agrees_emitPiece (hf : KeepsIdents f) :
    ∀ t : Tree, Agrees f (emitPiece t) (emitPiece (t.mapNames f))
  | .literal value => by
      rw [mapNames, emitPiece]
      apply Agrees.bind (.lift (renamed_literalText value))
      intro shown
      exact .pure rfl
  | .var name => by
      rw [mapNames, emitPiece, emitPiece, hf]
      exact .pure rfl
  | .operation op operands => by
      rw [mapNames, emitPiece, emitPiece]
      apply Agrees.bind (agrees_emitPieces hf operands)
      intro pieces
      -- A template takes the pieces as they are and other operators take expressions only; the
      -- texts are rendered in the same way after either.
      have hrender : ∀ sources,
          Agrees f (do return Piece.text (← liftM (Error.ofFault (op.render sources))))
            (do return Piece.text (← liftM (Error.ofFault (op.render sources)))) := by
        intro sources
        apply Agrees.bind (.lift (renamed_ofFault _))
        intro shown
        exact .pure rfl
      dsimp only
      split
      · apply Agrees.bind (.pure rfl) hrender
      · apply Agrees.bind (.lift (renamed_mapM_expression pieces)) hrender
  | .conditional sort test conseq alt => by
      rw [mapNames]
      cases sort with
      | converted =>
        rw [emitPiece, emitPiece]
        apply Agrees.bind (agrees_emitPiece hf test)
        intro test
        apply Agrees.bind (agrees_emitPiece hf conseq)
        intro conseq
        apply Agrees.bind (agrees_emitPiece hf alt)
        intro alt
        exact .pure rfl
      | _ =>
        simp only [emitPiece]
        exact .throw _
  | .abstraction params body => by
      rw [mapNames, emitPiece, emitPiece]
      apply Agrees.bind (agrees_emitPiece hf body)
      intro body
      apply Agrees.pure
      rw [lambdaText_map hf]
  | .application rator rands => by
      rw [mapNames, emitPiece, emitPiece]
      apply Agrees.bind (agrees_emitPiece hf rator)
      intro function
      apply Agrees.bind (agrees_emitPieces hf rands)
      intro pieces
      apply Agrees.bind (.lift (renamed_mapM_expression pieces))
      intro sources
      apply Agrees.pure
      rw [ratorText, ratorText, isLiteral_mapNames]
  | .definition name params body _ => by
      rw [mapNames, emitPiece, emitPiece]
      apply Agrees.bind (agrees_emitPiece hf body)
      intro body
      apply Agrees.bind (.lift (renamed_expression body))
      intro body
      apply Agrees.pure
      rw [definitionLines_map hf]
  | .entry name params k flag inner => by
      rw [mapNames, emitPiece, emitPiece, name?_mapNames]
      cases inner.name? with
      | none => exact .throw _
      | some innerName =>
        apply Agrees.bind (agrees_helperIdent hf _)
        intro identity
        apply Agrees.bind (agrees_emitPiece hf inner)
        intro piece
        apply Agrees.bind (agrees_helperIdent hf _)
        intro makeFlag
        apply Agrees.bind (agrees_helperIdent hf _)
        intro trampoline
        apply Agrees.pure
        rw [entryLines_map hf]
  | .program definitions helpers => by
      rw [mapNames, emitPiece, emitPiece]
      apply Agrees.bind (.set helpers)
      intro _
      apply Agrees.bind (.lift (renamed_importLines hf _ helpers))
      intro imports
      apply Agrees.bind (agrees_emitPieces hf definitions)
      intro pieces
      exact .pure rfl
  | .continuation _ _ | .resumption _ _ | .blank | .nothing | .number _ | .text _ | .list _
  | .tuple _ => by
      simp only [mapNames, emitPiece]
      exact .throw _

/-- Emission of some trees looks at names only through their identifiers. -/
theorem agrees_emitPieces (hf : KeepsIdents f) :
    ∀ ts : List Tree, Agrees f (emitPieces ts) (emitPieces (mapNamesAll f ts))
  | [] => by
      rw [mapNamesAll, emitPieces]
      exact .pure rfl
  | t :: ts => by
      rw [mapNamesAll, emitPieces, emitPieces]
      apply Agrees.bind (agrees_emitPiece hf t)
      intro first
      apply Agrees.bind (agrees_emitPieces hf ts)
      intro rest
      exact .pure rfl

end

/-- A tree whose names are changed to others with the same identifiers has the same text. -/
theorem renamed_emit (hf : KeepsIdents f) (t : Tree) (table : HelperTable) :
  Renamed f id (t.emit table) ((t.mapNames f).emit (table.mapNames f))
  := by
  apply Renamed.map ((agrees_emitPiece hf t).run' table)
  intro piece
  rfl

/-- A program whose names are changed to others with the same identifiers has the same module. -/
theorem renamed_emitProgram (hf : KeepsIdents f) (t : Tree) (source : String) :
  Renamed f id (t.emitProgram source) ((t.mapNames f).emitProgram source)
  := by
  cases t with
  | program definitions helpers =>
    rw [mapNames, emitProgram, emitProgram]
    apply Renamed.bind (renamed_importLines hf source helpers)
    intro imports
    apply Renamed.bind ((agrees_emitPieces hf definitions).run' helpers)
    intro pieces
    exact Renamed.ok rfl
  | conditional sort _ _ _ => cases sort <;> rw [mapNames] <;> rfl
  | _ =>
    rw [mapNames]
    rfl

end Tree

end Steps

/-! ### Names as identifiers -/

/-- The identifier of a name is an identifier and no reserved word, and only such names are their
own identifiers. The text of a tree, and that of the module of a program, is the text of a tree that
has identifiers as names; so is the module that a text is compiled to, whatever the text and the
name of the entry. Only the path of the module of the helpers is no name: it is written as it is
given. -/
theorem isPlain_emitted_names :
  (∀ name, IsPlain (mangle name) ∧ mangle (mangle name) = mangle name)
    ∧ (∀ name, mangle name = name ↔ IsPlain name)
    ∧ (∀ t : Tree, (∀ x ∈ (t.mapNames mangle).labels, IsPlain x)
      ∧ (∀ (table : HelperTable), (∀ h ∈ table.mapNames mangle, IsPlain h.2)
        ∧ ∀ text, t.emit table = .ok text
          ↔ (t.mapNames mangle).emit (table.mapNames mangle) = .ok text)
      ∧ ∀ source text, t.emitProgram source = .ok text
          ↔ (t.mapNames mangle).emitProgram source = .ok text)
    ∧ ∀ (params : Parameters) (text emitted : String) (names : NameSource),
      (compileToSource params text).result names = .ok emitted →
        ∃ program path, (compileText params text).result names = .ok program
          ∧ params.moduleName = .ok path
          ∧ (∀ x ∈ (program.mapNames mangle).labels, IsPlain x)
          ∧ (program.mapNames mangle).emitProgram path = .ok emitted
  := by
  refine ⟨?_, ?_, ?_, ?_⟩
  · intro name
    exact ⟨isPlain_mangle name, mangle_mangle name⟩
  · intro name
    refine ⟨?_, mangle_of_isPlain⟩
    intro heq
    rw [← heq]
    apply isPlain_mangle
  · intro t
    refine ⟨fun x => Tree.isPlain_of_mem_labels, ?_, ?_⟩
    · intro table
      refine ⟨?_, (Tree.renamed_emit mangle_mangle t table).ok_iff⟩
      rw [HelperTable.mapNames, List.forall_mem_map]
      intro h _
      dsimp only
      apply isPlain_mangle
    · intro source
      apply (Tree.renamed_emitProgram mangle_mangle t source).ok_iff
  · intro params text emitted names hcompile
    obtain ⟨program, path, hprogram, hpath, hemit⟩ := exists_module_of_source hcompile
    refine ⟨program, path, hprogram, hpath, fun x => Tree.isPlain_of_mem_labels, ?_⟩
    rwa [← (Tree.renamed_emitProgram mangle_mangle program path).ok_iff]

/-- A name for the entry that would be code if it were written as it is. -/
def hostileEntry : Parameters :=
  { entry := .text "f();\ng" }

/-- A text whose names are a reserved word, a name that starts with a digit and one with a colon. -/
def hostileText : String :=
  "(defn class (1st x:x) (* 1st x:x)) (class 1 2)"

/-- Names that are no identifiers come out as identifiers. -/
theorem isPlain_emitted_names_hostileText :
  mangle "f();\ng" = "f_x28_x29_x3b_x0ag"
    ∧ ["class", "1st", "x:x", ""].map mangle = ["class_", "_1st", "x_x3ax", "_"]
    ∧ ∃ emitted, (compileToSource hostileEntry hostileText).result .default = .ok emitted
      ∧ ∃ program path, (compileText hostileEntry hostileText).result .default = .ok program
        ∧ hostileEntry.moduleName = .ok path
        ∧ (∀ x ∈ (program.mapNames mangle).labels, IsPlain x)
        ∧ (program.mapNames mangle).emitProgram path = .ok emitted
  := by
  refine ⟨by decide +kernel, by decide +kernel, ?_⟩
  have hcompile : ((compileToSource hostileEntry hostileText).result .default).isOk := by
    decide +kernel
  obtain ⟨emitted, hemitted⟩ := exists_of_isOk hcompile
  obtain ⟨-, -, -, hsource⟩ := isPlain_emitted_names
  exact ⟨emitted, hemitted, hsource hostileEntry hostileText emitted .default hemitted⟩

end Springboard
