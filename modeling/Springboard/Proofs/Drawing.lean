import Springboard.Proofs.Compilation

/-!
# Drawing names

A stage that draws names returns those that are left only if it succeeds. Here are the stages once
more, as computations that keep the names that are left also when they fail, so that it can be said
how many were drawn. Main statement: they have the values, the names and the errors of the stages,
and so has the whole compilation.
-/

namespace Springboard

open Compile

/-- Computations that draw fresh names and may fail, and keep the names that are left when they
do. -/
abbrev Drawing := EStateM Error NameSource

namespace Drawing

variable {α : Type}

/-- A fresh name. -/
def fresh (base : String) : Drawing String := fun names =>
  .ok (names.fresh base).1 (names.fresh base).2

/-- A step that draws no names. -/
def lift : Except Error α → Drawing α
  | .ok a => pure a
  | .error e => throw e

/-- Fails with a complaint about a tree. -/
def decline (complaint : Complaint) (subject : Tree) : Drawing α :=
  throw (.malformed complaint none subject)

end Drawing

namespace Tree

open Drawing

mutual

/-- Conversion of a tree that keeps the names. -/
def drawNode (k? : Option Tree) : Tree → Drawing Tree
  | literal value => pure (deliver k? (literal value))
  | var name => pure (deliver k? (var name))
  | continuation arg body => pure (deliver k? (continuation arg body))
  | abstraction params body => do
    let k ← fresh "k"
    let body ← drawNode (some (var k)) body
    pure (deliver k? (abstraction (params ++ [k]) body))
  | operation op operands =>
    if allTrivial operands then do
      let operands ← drawValues operands
      pure (deliver k? (operation op operands))
    else
      match k? with
      | none => decline .seriousInTrivial (operation op operands)
      | some k => do
        let (parts, pending) ← drawParts operands
        drawPending operands pending (resumption k (operation op parts))
  | conditional sort test conseq alt =>
    match sort, k? with
    | .trivial, k? => do
      let test ← drawNode none test
      let conseq ← drawNode none conseq
      let alt ← drawNode none alt
      pure (deliver k? (conditional .converted test conseq alt))
    | .converted, k? => pure (deliver k? (conditional .converted test conseq alt))
    | .serious, some k => do
      let conseq ← drawNode (some k) conseq
      let alt ← drawNode (some k) alt
      if test.isTrivial then do
        let test ← drawNode none test
        pure (conditional .converted test conseq alt)
      else do
        let s ← fresh "s"
        drawNode (some (continuation s (conditional .converted (var s) conseq alt))) test
    | .plain, some _ => decline (.noRule .conversion) (conditional .plain test conseq alt)
    | sort, none => decline .seriousInTrivial (conditional sort test conseq alt)
  | application rator rands =>
    match k? with
    | none => decline .seriousInTrivial (application rator rands)
    | some k =>
      if rator.isTrivial then do
        let function ← drawNode none rator
        let (parts, pending) ← drawParts rands
        drawPending rands pending (application function (parts ++ [k]))
      else do
        let s ← fresh "s"
        let (parts, pending) ← drawParts rands
        let rest ← drawPending rands pending (application (var s) (parts ++ [k]))
        drawNode (some (continuation s rest)) rator
  | definition name params body own =>
    match k? with
    | none => decline .seriousInTrivial (definition name params body own)
    | some _ => decline .nestedDefinition (definition name params body own)
  | t =>
    if t.isNode && k?.isNone then decline .seriousInTrivial t
    else decline (.noRule .conversion) t

/-- Conversion of trivial trees that keeps the names. -/
def drawValues : List Tree → Drawing (List Tree)
  | [] => pure []
  | t :: ts => do
    let first ← drawNode none t
    let rest ← drawValues ts
    pure (first :: rest)

/-- Conversion of parts that keeps the names. -/
def drawParts : List Tree → Drawing (List Tree × List (Option String))
  | [] => pure ([], [])
  | t :: ts =>
    if t.isTrivial then do
      let value ← drawNode none t
      let (values, pending) ← drawParts ts
      pure (value :: values, none :: pending)
    else do
      let s ← fresh "s"
      let (values, pending) ← drawParts ts
      pure (var s :: values, some s :: pending)

/-- Conversion of what is computed first that keeps the names. -/
def drawPending : List Tree → List (Option String) → Tree → Drawing Tree
  | t :: ts, some s :: pending, result => do
    let result ← drawPending ts pending result
    drawNode (some (continuation s result)) t
  | _ :: ts, none :: pending, result => drawPending ts pending result
  | _, _, result => pure result

end

/-- Conversion of a tree in front of a variable that keeps the names. -/
def drawBody (t : Tree) (k : String) : Drawing Tree :=
  if !t.isNode then decline (.noRule .conversion) t
  else drawNode (some (var k)) t

/-- Conversion of a definition that keeps the names. -/
def drawDefinition : Tree → Drawing Tree
  | definition name params body _ => do
    let own ← fresh name
    let k ← fresh "k"
    let body ← if params.contains name then pure body else lift (rename name own body)
    let body ← drawBody body k
    pure (definition name (params ++ [k]) body (some own))
  | t => decline .notDefinition t

/-- The entry of a converted and suspended definition, with the names kept. -/
def drawEntry : Tree → Drawing Tree
  | definition name params body own =>
    match own, params.getLast? with
    | some fresh, some k =>
      if body.isDelayed then do
        let flag ← Drawing.fresh "done"
        pure (entry name params.dropLast k flag (definition fresh params body none))
      else throw (.breach .notSuspended (definition name params body own))
    | _, _ => throw (.breach .notConverted (definition name params body own))
  | entry name params k flag inner =>
    throw (.breach .alreadyTrampolined (entry name params k flag inner))
  | t => decline (.noRule .trampolining) t

/-- The entries of some definitions, with the names kept. -/
def drawEntries : List Tree → Drawing (List Tree)
  | [] => pure []
  | t :: ts => do
    let first ← drawEntry t
    let rest ← drawEntries ts
    pure (first :: rest)

end Tree

namespace Drawing

/-- Takes one definition through the stages. -/
def definition (applyK : String) (defn : Tree) : Drawing Tree := do
  let converted ← defn.drawDefinition
  let abstracted ← lift (converted.abstractK applyK)
  lift abstracted.suspend

/-- Takes some forms through the stages, one after the other. -/
def definitions (entry : Tree) (applyK : String) : List String → List Tree → Drawing (List Tree)
  | _, [] => pure []
  | seen, form :: forms => do
    let defn ← lift (form.wrapEntry entry)
    let name := defn.name?.getD ""
    if seen.contains name then throw (.malformed .duplicateDefinition none defn)
    let first ← definition applyK defn
    let rest ← definitions entry applyK (name :: seen) forms
    pure (first :: rest)

/-- A fresh name for each helper. -/
def helpers : Drawing (List (String × String)) := fun names =>
  .ok (helperNames names).1 (helperNames names).2

/-- The program of some forms, where the names of the helpers have been drawn. -/
def programWith (entry : Tree) (helpers : List (String × String)) (forms : List Tree) :
    Drawing Tree := do
  let applyK := (helpers.lookup Helper.applyK.role).getD ""
  let definitions ← definitions entry applyK [] forms
  let entries ← Tree.drawEntries definitions
  pure (Tree.programOf entries helpers)

/-- The program of some forms, with the names kept. -/
def program (entry : Tree) (forms : List Tree) : Drawing Tree := do
  let helpers ← helpers
  programWith entry helpers forms

end Drawing

/-! ### The stages -/

/-- The computation has the value of the step with the names that are left, or its error. -/
def Keeps {α : Type} (x : Drawing α) (step : Naming α) : Prop :=
  ∀ names, step names = match x names with
    | .ok a names' => .ok (a, names')
    | .error e _ => .error e

namespace Keeps

variable {α β : Type}

/-- A pure step draws nothing. -/
theorem pure (a : α) : Keeps (pure a) (pure a) := by
  intro names
  rfl

/-- A name that is drawn is gone. -/
theorem fresh (base : String) : Keeps (.fresh base) (freshName base) := by
  intro names
  rfl

/-- A step that fails has an error. -/
theorem throw (e : Error) : Keeps (throw e : Drawing α) (throw e) := by
  intro names
  rfl

/-- A step that draws no names is kept as it is. -/
theorem lift (x : Except Error α) : Keeps (.lift x) (liftM x) := by
  intro names
  cases x with
  | ok a => rfl
  | error e => rfl

/-- Steps are kept one after the other. -/
theorem bind {x : Drawing α} {step : Naming α} {f : α → Drawing β} {g : α → Naming β}
    (hx : Keeps x step) (hf : ∀ a, Keeps (f a) (g a)) :
  Keeps (x >>= f) (step >>= g)
  := by
  intro names
  have hstep := hx names
  cases hrun : x names with
  | ok a names' =>
    rw [hrun] at hstep
    rw [bind_of_ok hrun, Tree.naming_bind hstep]
    apply hf a names'
  | error e names' =>
    rw [hrun] at hstep
    rw [bind_of_error hrun]
    simp only [Bind.bind, StateT.bind, hstep, Except.bind]

end Keeps

namespace Tree

mutual

/-- Conversion is kept. -/
theorem keeps_drawNode : ∀ (k? : Option Tree) (t : Tree), Keeps (drawNode k? t) (convertNode k? t)
  | k?, .literal _ | k?, .var _ | k?, .continuation _ _ => by
      rw [drawNode, convertNode]
      apply Keeps.pure
  | k?, .abstraction params body => by
      rw [drawNode, convertNode]
      apply Keeps.bind (.fresh "k")
      intro k
      apply Keeps.bind (keeps_drawNode _ body)
      intro body
      apply Keeps.pure
  | k?, .operation op operands => by
      rw [drawNode.eq_def, convertNode.eq_def]
      dsimp only
      split
      · apply Keeps.bind (keeps_drawValues operands)
        intro operands
        apply Keeps.pure
      split
      · apply Keeps.throw
      · apply Keeps.bind (keeps_drawParts operands)
        rintro ⟨parts, pending⟩
        apply keeps_drawPending operands
  | k?, .conditional .trivial test conseq alt => by
      rw [drawNode.eq_def, convertNode.eq_def]
      apply Keeps.bind (keeps_drawNode none test)
      intro test
      apply Keeps.bind (keeps_drawNode none conseq)
      intro conseq
      apply Keeps.bind (keeps_drawNode none alt)
      intro alt
      apply Keeps.pure
  | some k, .conditional .serious test conseq alt => by
      rw [drawNode.eq_def, convertNode.eq_def]
      apply Keeps.bind (keeps_drawNode _ conseq)
      intro conseq
      apply Keeps.bind (keeps_drawNode _ alt)
      intro alt
      split
      · apply Keeps.bind (keeps_drawNode none test)
        intro test
        apply Keeps.pure
      · apply Keeps.bind (.fresh "s")
        intro s
        apply keeps_drawNode _ test
  | k?, .conditional .converted test conseq alt => by
      rw [drawNode.eq_def, convertNode.eq_def]
      apply Keeps.pure
  | some _, .conditional .plain _ _ _ | none, .conditional .plain _ _ _
  | none, .conditional .serious _ _ _ => by
      rw [drawNode.eq_def, convertNode.eq_def]
      apply Keeps.throw
  | k?, .application rator rands => by
      rw [drawNode.eq_def, convertNode.eq_def]
      dsimp only
      split
      · apply Keeps.throw
      split
      · apply Keeps.bind (keeps_drawNode none rator)
        intro function
        apply Keeps.bind (keeps_drawParts rands)
        rintro ⟨parts, pending⟩
        apply keeps_drawPending rands
      · apply Keeps.bind (.fresh "s")
        intro s
        apply Keeps.bind (keeps_drawParts rands)
        rintro ⟨parts, pending⟩
        apply Keeps.bind (keeps_drawPending rands pending _)
        intro rest
        apply keeps_drawNode _ rator
  | k?, .definition name params body own => by
      rw [drawNode.eq_def, convertNode.eq_def]
      dsimp only
      split
      · apply Keeps.throw
      · apply Keeps.throw
  | k?, .blank | k?, .resumption _ _ | k?, .entry _ _ _ _ _ | k?, .program _ _ | k?, .nothing
  | k?, .number _ | k?, .text _ | k?, .list _ | k?, .tuple _ => by
      rw [drawNode.eq_def, convertNode.eq_def]
      dsimp only
      split
      · apply Keeps.throw
      · apply Keeps.throw

/-- Conversion of trivial trees is kept. -/
theorem keeps_drawValues : ∀ ts : List Tree, Keeps (drawValues ts) (convertValues ts)
  | [] => by
      rw [drawValues, convertValues]
      apply Keeps.pure
  | t :: ts => by
      rw [drawValues, convertValues]
      apply Keeps.bind (keeps_drawNode none t)
      intro first
      apply Keeps.bind (keeps_drawValues ts)
      intro rest
      apply Keeps.pure

/-- Conversion of parts is kept. -/
theorem keeps_drawParts : ∀ ts : List Tree, Keeps (drawParts ts) (convertParts ts)
  | [] => by
      rw [drawParts, convertParts]
      apply Keeps.pure
  | t :: ts => by
      rw [drawParts, convertParts]
      split
      · apply Keeps.bind (keeps_drawNode none t)
        intro value
        apply Keeps.bind (keeps_drawParts ts)
        rintro ⟨values, pending⟩
        apply Keeps.pure
      · apply Keeps.bind (.fresh "s")
        intro s
        apply Keeps.bind (keeps_drawParts ts)
        rintro ⟨values, pending⟩
        apply Keeps.pure

/-- Conversion of what is computed first is kept. -/
theorem keeps_drawPending :
    ∀ (ts : List Tree) (pending : List (Option String)) (result : Tree),
      Keeps (drawPending ts pending result) (convertPending ts pending result)
  | [], pending, result => by
      rw [drawPending, convertPending]
      · apply Keeps.pure
      all_goals intros; contradiction
  | t :: ts, [], result => by
      rw [drawPending, convertPending]
      · apply Keeps.pure
      all_goals intros; contradiction
  | t :: ts, none :: pending, result => by
      rw [drawPending, convertPending]
      apply keeps_drawPending ts pending result
  | t :: ts, some s :: pending, result => by
      rw [drawPending, convertPending]
      apply Keeps.bind (keeps_drawPending ts pending result)
      intro result
      apply keeps_drawNode _ t

end

/-- Conversion of a definition is kept. -/
theorem keeps_drawDefinition (t : Tree) : Keeps t.drawDefinition t.convertDefinition := by
  cases t with
  | definition name params body own =>
    rw [drawDefinition, convertDefinition]
    apply Keeps.bind (.fresh name)
    intro own
    apply Keeps.bind (.fresh "k")
    intro k
    have hrest : ∀ body, Keeps
        (drawBody body k >>= fun body => pure (definition name (params ++ [k]) body (some own)))
        (convert body (some (var k)) >>= fun body =>
          pure (definition name (params ++ [k]) body (some own))) := by
      intro body
      have hconverted : Keeps (drawBody body k) (convert body (some (var k))) := by
        unfold drawBody convert
        dsimp only [isContinuation]
        split
        · apply Keeps.throw
        · apply keeps_drawNode
      apply Keeps.bind hconverted
      intro body
      apply Keeps.pure
    dsimp only
    split
    · apply Keeps.bind (.pure body) hrest
    · apply Keeps.bind (.lift _) hrest
  | _ => apply Keeps.throw

/-- Making an entry is kept. -/
theorem keeps_drawEntry (t : Tree) : Keeps t.drawEntry t.toEntry := by
  cases t with
  | definition name params body own =>
    rw [drawEntry.eq_def, toEntry.eq_def]
    dsimp only
    cases own with
    | none => apply Keeps.throw
    | some own =>
      cases hlast : params.getLast? with
      | none => apply Keeps.throw
      | some k =>
        dsimp only
        split
        · apply Keeps.bind (.fresh "done")
          intro flag
          apply Keeps.pure
        · apply Keeps.throw
  | _ => apply Keeps.throw

/-- Making entries is kept. -/
theorem keeps_drawEntries (ts : List Tree) : Keeps (drawEntries ts) (toEntries ts) := by
  induction ts with
  | nil => apply Keeps.pure
  | cons t ts ih =>
    apply Keeps.bind (keeps_drawEntry t)
    intro first
    apply Keeps.bind ih
    intro rest
    apply Keeps.pure

end Tree

/-! ### Compilation -/

/-- The computation has the value and the names of the compilation, or its error, whatever notes are
taken. -/
def Accounts {α : Type} (x : Drawing α) (c : Compile α) : Prop :=
  ∀ p, match x p.names with
    | .ok a names => ∃ notes, c p = .ok a ⟨names, notes⟩
    | .error e _ => ∃ p', c p = .error e p'

namespace Accounts

variable {α β : Type}

/-- A pure step is accounted for. -/
theorem pure (a : α) : Accounts (pure a) (pure a) := by
  intro p
  exact ⟨p.notes, rfl⟩

/-- A failing step is accounted for. -/
theorem throw (e : Error) : Accounts (throw e : Drawing α) (throw e) := by
  intro p
  exact ⟨p, rfl⟩

/-- A step that may fail is accounted for. -/
theorem attempt (x : Except Error α) : Accounts (.lift x) (attempt x) := by
  cases x with
  | ok a => apply pure
  | error e => apply throw

/-- A step that draws names is accounted for. -/
theorem naming {x : Drawing α} {step : Naming α} (h : Keeps x step) :
  Accounts x (naming step)
  := by
  intro p
  have hstep := h p.names
  cases hrun : x p.names with
  | ok a names =>
    rw [hrun] at hstep
    refine ⟨p.notes, ?_⟩
    rw [Compile.naming, hstep]
  | error e names =>
    rw [hrun] at hstep
    refine ⟨p, ?_⟩
    rw [Compile.naming, hstep]

/-- Steps are accounted for one after the other. -/
theorem bind {x : Drawing α} {c : Compile α} {f : α → Drawing β} {g : α → Compile β}
    (hx : Accounts x c) (hf : ∀ a, Accounts (f a) (g a)) :
  Accounts (x >>= f) (c >>= g)
  := by
  intro p
  have hfirst := hx p
  cases hrun : x p.names with
  | ok a names =>
    rw [hrun] at hfirst
    obtain ⟨notes, hc⟩ := hfirst
    rw [bind_of_ok hrun, bind_of_ok hc]
    apply hf a ⟨names, notes⟩
  | error e names =>
    rw [hrun] at hfirst
    obtain ⟨p', hc⟩ := hfirst
    rw [bind_of_error hrun, bind_of_error hc]
    exact ⟨p', rfl⟩

/-- Notes that are taken need no account. -/
theorem note {x : Drawing α} {c : Compile α} (h : Accounts x c) (n : Note) :
  Accounts x (note n >>= fun _ => c)
  := by
  intro p
  apply h ⟨p.names, n :: p.notes⟩

end Accounts

/-- The compilation of a definition is accounted for. -/
theorem accounts_definition (ak : String) (t : Tree) :
  Accounts (.definition ak t) (compileDefinition ak t)
  := by
  apply Accounts.bind (.naming t.keeps_drawDefinition)
  intro converted
  apply Accounts.note
  apply Accounts.bind (.attempt _)
  intro abstracted
  apply Accounts.note
  -- the last step of the compilation is a note
  have hlast := fun suspended => (Accounts.pure suspended).note (.reached .suspended suspended)
  have hsuspended := Accounts.bind (.attempt abstracted.suspend) hlast
  rwa [bind_pure] at hsuspended

/-- The compilation of some forms is accounted for. -/
theorem accounts_definitions (entry : Tree) (ak : String) (seen : List String) (forms : List Tree) :
  Accounts (.definitions entry ak seen forms) (compileDefinitions entry ak seen forms)
  := by
  induction forms generalizing seen with
  | nil => apply Accounts.pure
  | cons form forms ih =>
    rw [Drawing.definitions, compileDefinitions]
    apply Accounts.bind (.attempt _)
    intro defn
    dsimp only
    split
    · apply Accounts.throw
    · apply Accounts.note
      apply Accounts.bind (accounts_definition ak defn)
      intro first
      apply Accounts.bind (ih _)
      intro rest
      apply Accounts.pure

/-- The compilation of a program is accounted for. -/
theorem accounts_program (entry runtime : Tree) (forms : List Tree) :
  Accounts (.program entry forms) (compileForms ⟨entry, runtime⟩ forms)
  := by
  have hhelpers : Keeps .helpers (fun names => .ok (helperNames names)) := by
    intro names
    rfl
  apply Accounts.bind (.naming hhelpers)
  intro helpers
  apply Accounts.bind (accounts_definitions _ _ _ _)
  intro definitions
  have hprogram : Keeps (Tree.drawEntries definitions >>= fun entries =>
      pure (Tree.programOf entries helpers)) (Tree.toProgram helpers definitions) := by
    apply Keeps.bind (Tree.keeps_drawEntries definitions)
    intro entries
    apply Keeps.pure
  -- here too the last step of the compilation is a note
  have hlast := fun program : Tree => (Accounts.pure program).note (.trampolined definitions.length)
  have hnoted := Accounts.bind (.naming hprogram) hlast
  rwa [bind_pure] at hnoted

end Springboard
