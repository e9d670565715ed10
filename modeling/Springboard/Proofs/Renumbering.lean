import Springboard.Proofs.Conversion
import Springboard.Proofs.Drawing

/-!
# Renumbering

The names that a compilation draws differ from run to run only by where the counter starts. Main
statement: if no name of some forms ends in a number, then compiling them from one number on and
from another have the same outcome, be it a program or an error, up to the numbers at the ends of
names; and both draw equally many names.
-/

namespace Springboard

open NameSource

/-! ### Numbers of names -/

/-- The number at the end of a name. -/
def numberOf (name : String) : Nat :=
  Nat.ofDigitChars 10 (name.toList.reverse.takeWhile Char.isDigit).reverse 0

/-- What stands before the number at the end of a name and the low lines in front of it. -/
def baseOf (name : String) : String :=
  String.ofList ((name.toList.reverse.dropWhile Char.isDigit).drop 2).reverse

/-- The name with an amount added to the number at its end, if there is one. -/
def renumber (amount : Int) (name : String) : String :=
  if isNumbered name then nameOf (baseOf name) (numberOf name + amount) else name

/-- The number of a fresh name is changed. -/
theorem renumber_nameOf (amount : Int) (base : String) {n : Int} (hn : 0 ≤ n) :
  renumber amount (nameOf base n) = nameOf base (n + amount)
  := by
  obtain ⟨hdigits, hrest⟩ := reverse_nameOf base hn
  have hbase : baseOf (nameOf base n) = base := by
    simp [baseOf, hrest]
  have hnumber : (numberOf (nameOf base n) : Int) = n := by
    have hnumeral : numeral n = Nat.toDigits 10 n.natAbs := by
      rw [numeral, if_neg (by omega), List.nil_append]
    rw [numberOf, hdigits, List.reverse_reverse, hnumeral, Nat.ofDigitChars_ten_toDigits]
    omega
  rw [renumber, if_pos (isNumbered_nameOf base hn), hbase, hnumber]

/-- A name without a number stays as it is. -/
theorem renumber_of_not_isNumbered (amount : Int) {name : String} (h : ¬ isNumbered name) :
  renumber amount name = name
  := by
  apply if_neg h

/-! ### Names of trees -/

namespace Tree

mutual

/-- The tree with its names changed: those of variables, parameters, definitions, continuations,
flags and helpers. -/
def mapNames (f : String → String) : Tree → Tree
  | blank => blank
  | literal value => literal value
  | var name => var (f name)
  | operation op operands => operation op (mapNamesAll f operands)
  | conditional sort test conseq alt =>
    conditional sort (mapNames f test) (mapNames f conseq) (mapNames f alt)
  | abstraction params body => abstraction (params.map f) (mapNames f body)
  | definition name params body own =>
    definition (f name) (params.map f) (mapNames f body) (own.map f)
  | continuation arg body => continuation (f arg) (mapNames f body)
  | resumption k arg => resumption (mapNames f k) (mapNames f arg)
  | application rator rands => application (mapNames f rator) (mapNamesAll f rands)
  | entry name params k flag inner =>
    entry (f name) (params.map f) (f k) (f flag) (mapNames f inner)
  | program definitions helpers =>
    program (mapNamesAll f definitions) (helpers.map fun h => (h.1, f h.2))
  | nothing => nothing
  | number n => number n
  | text s => text s
  | list items => list (mapNamesAll f items)
  | tuple items => tuple (mapNamesAll f items)

/-- Some trees with their names changed. -/
def mapNamesAll (f : String → String) : List Tree → List Tree
  | [] => []
  | t :: ts => mapNames f t :: mapNamesAll f ts

end

variable (f : String → String)

/-- The names of trees are changed one by one. -/
theorem mapNamesAll_eq_map (ts : List Tree) : mapNamesAll f ts = ts.map (mapNames f) := by
  induction ts with
  | nil => rw [mapNamesAll, List.map_nil]
  | cons t ts ih => rw [mapNamesAll, List.map_cons, ih]

mutual

/-- Changing names makes nothing trivial or serious. -/
theorem isTrivial_mapNames : ∀ t : Tree, (t.mapNames f).isTrivial = t.isTrivial
  | .operation op operands => by
      rw [mapNames, isTrivial, isTrivial, allTrivial_mapNamesAll operands]
  | .blank | .literal _ | .var _ | .conditional _ _ _ _ | .abstraction _ _ | .definition _ _ _ _
  | .continuation _ _ | .resumption _ _ | .application _ _ | .entry _ _ _ _ _ | .program _ _
  | .nothing | .number _ | .text _ | .list _ | .tuple _ => by
      simp only [mapNames, isTrivial]

/-- Changing names makes none of some trees trivial or serious. -/
theorem allTrivial_mapNamesAll : ∀ ts : List Tree, allTrivial (mapNamesAll f ts) = allTrivial ts
  | [] => by
      rw [mapNamesAll]
  | t :: ts => by
      rw [mapNamesAll, allTrivial, allTrivial, isTrivial_mapNames t, allTrivial_mapNamesAll ts]

end

/-- A node stays a node. -/
theorem isNode_mapNames (t : Tree) : (t.mapNames f).isNode = t.isNode := by
  cases t <;> rw [mapNames] <;> rfl

/-- A suspended body stays one. -/
theorem isDelayed_mapNames (t : Tree) : (t.mapNames f).isDelayed = t.isDelayed := by
  cases t with
  | abstraction params body =>
    rw [mapNames]
    cases params with
    | nil => rfl
    | cons x xs => rfl
  | _ => rw [mapNames] <;> rfl

/-- A value that is handed on has its names changed, and so has the continuation. -/
theorem mapNames_deliver (k? : Option Tree) (value : Tree) :
  (deliver k? value).mapNames f = deliver (k?.map (mapNames f)) (value.mapNames f)
  := by
  cases k? with
  | none => rfl
  | some k => rw [deliver, mapNames, Option.map_some, deliver]

/-- Renaming a tree whose names stay as they are changes as the new name does. -/
theorem mapNames_renamed {f : String → String} {nested : Bool} {t : Tree} (h : Surface nested t)
    (hnames : ∀ x ∈ t.names, f x = x) (r : Renaming) :
  (r.tree t).mapNames f = Renaming.tree (r.map fun p => (p.1, f p.2)) t
  := by
  have hall : ∀ {ts : List Tree} (r : Renaming),
      (∀ t ∈ ts, (∀ x ∈ t.names, f x = x) → ∀ r : Renaming,
        (r.tree t).mapNames f = Renaming.tree (r.map fun p => (p.1, f p.2)) t) →
      (∀ x ∈ namesAll ts, f x = x) →
        mapNamesAll f (r.trees ts) = Renaming.trees (r.map fun p => (p.1, f p.2)) ts := by
    intro ts r hts hnames
    rw [mapNamesAll_eq_map, Renaming.trees_eq_map, Renaming.trees_eq_map, List.map_map]
    apply List.map_congr_left
    intro t ht
    apply hts t ht
    intro x hx
    apply hnames x
    rw [mem_namesAll]
    exact ⟨t, ht, hx⟩
  have hparams : ∀ {params : List String}, (∀ x ∈ params, f x = x) → params.map f = params := by
    intro params hparams
    rw [List.map_congr_left hparams, List.map_id']
  have hunder : ∀ (r : Renaming) (params : List String),
      Renaming.under (r.map fun p => (p.1, f p.2)) params
        = (r.under params).map fun p => (p.1, f p.2) := by
    intro r params
    cases r with
    | none => rfl
    | some p =>
      rw [Option.map_some, Renaming.under, Renaming.under, Option.filter_some, Option.filter_some]
      split <;> rfl
  induction h generalizing r with
  | literal value => rw [Renaming.tree, mapNames, Renaming.tree]
  | var x =>
    rw [Renaming.tree, mapNames, Renaming.tree]
    have hx := hnames x (List.mem_singleton_self x)
    rcases r with _ | ⟨old, new⟩
    · rw [Renaming.name, hx]
      rfl
    · rw [Renaming.name, Option.map_some, Renaming.name, apply_ite f, hx]
  | operation _ _ ih => rw [Renaming.tree, mapNames, Renaming.tree, hall r ih hnames]
  | trivialConditional _ _ _ _ ihtest ihconseq ihalt
  | seriousConditional _ _ _ ihtest ihconseq ihalt =>
    rw [names, List.forall_mem_append, List.forall_mem_append] at hnames
    rw [Renaming.tree, mapNames, Renaming.tree, ihtest hnames.1.1, ihconseq hnames.1.2,
      ihalt hnames.2]
  | abstraction params _ ih =>
    rw [names, List.forall_mem_append] at hnames
    rw [Renaming.tree, mapNames, Renaming.tree, hparams hnames.1, ih hnames.2, hunder]
  | definition name params _ _ ih =>
    rw [names, List.cons_append, List.forall_mem_cons, List.forall_mem_append] at hnames
    rw [Renaming.tree, mapNames, Renaming.tree, hnames.1, hparams hnames.2.1, ih hnames.2.2, hunder,
      Option.map_none]
  | application _ _ ihrator ihrands =>
    rw [names, List.forall_mem_append] at hnames
    rw [Renaming.tree, mapNames, Renaming.tree, ihrator hnames.1, hall r ihrands hnames.2]

/-- A tree whose names stay as they are stays as it is. -/
theorem mapNames_eq_self {f : String → String} {nested : Bool} {t : Tree} (h : Surface nested t)
    (hnames : ∀ x ∈ t.names, f x = x) :
  t.mapNames f = t
  := by
  have hnone := mapNames_renamed h hnames none
  rwa [Option.map_none, Renaming.tree_none h] at hnone

end Tree

/-- The error with the names of the tree that it is about changed. -/
def Error.mapNames (f : String → String) : Error → Error
  | malformed complaint place subject => malformed complaint place (subject.mapNames f)
  | breach b subject => breach b (subject.mapNames f)
  | e => e

/-! ### Stages that draw no names -/

/-- The second outcome is the first with its names changed, by `f` in an error and by `g` in a
value. -/
def Renamed {α : Type} (f : String → String) (g : α → α) (x y : Except Error α) : Prop :=
  y = match x with
    | .ok a => .ok (g a)
    | .error e => .error (e.mapNames f)

namespace Renamed

variable {α β : Type} {f : String → String}

/-- A value is changed. -/
theorem ok {g : α → α} {a b : α} (h : b = g a) : Renamed f g (.ok a) (.ok b) := by
  rw [h]
  rfl

/-- An error is changed. -/
theorem error {g : α → α} (e : Error) : Renamed f g (.error e) (.error (e.mapNames f)) := by
  rfl

/-- Steps are changed one after the other. -/
theorem bind {g : α → α} {g' : β → β} {x y : Except Error α} {h h' : α → Except Error β}
    (hx : Renamed f g x y) (hh : ∀ a, Renamed f g' (h a) (h' (g a))) :
  Renamed f g' (x >>= h) (y >>= h')
  := by
  cases x with
  | ok a =>
    cases hx
    apply hh a
  | error e =>
    cases hx
    rfl

end Renamed

namespace Tree

variable (f : String → String)

mutual

/-- Making continuations functions does not look at names. -/
theorem renamed_abstractK (ak : String) :
    ∀ t : Tree, Renamed f (mapNames f) (t.abstractK ak) ((t.mapNames f).abstractK (f ak))
  | .blank | .literal _ | .var _ => by
      rw [mapNames, abstractK, abstractK]
      apply Renamed.ok
      rw [mapNames]
  | .continuation arg body => by
      rw [mapNames, abstractK, abstractK]
      apply Renamed.bind (renamed_abstractK ak body)
      intro body
      apply Renamed.ok
      rw [mapNames]
      rfl
  | .abstraction _ body | .definition _ _ body _ | .entry _ _ _ _ body => by
      rw [mapNames, abstractK, abstractK]
      apply Renamed.bind (renamed_abstractK ak body)
      intro body
      apply Renamed.ok
      rw [mapNames]
  | .resumption k arg => by
      rw [mapNames, abstractK, abstractK]
      apply Renamed.bind (renamed_abstractK ak k)
      intro k
      apply Renamed.bind (renamed_abstractK ak arg)
      intro arg
      apply Renamed.ok
      simp only [mapNames, mapNamesAll]
  | .operation _ ts | .program ts _ => by
      rw [mapNames, abstractK, abstractK]
      apply Renamed.bind (renamed_abstractAll ak ts)
      intro ts
      apply Renamed.ok
      rw [mapNames]
  | .conditional _ test conseq alt => by
      rw [mapNames, abstractK, abstractK]
      apply Renamed.bind (renamed_abstractK ak test)
      intro test
      apply Renamed.bind (renamed_abstractK ak conseq)
      intro conseq
      apply Renamed.bind (renamed_abstractK ak alt)
      intro alt
      apply Renamed.ok
      rw [mapNames]
  | .application rator rands => by
      rw [mapNames, abstractK, abstractK]
      apply Renamed.bind (renamed_abstractK ak rator)
      intro rator
      apply Renamed.bind (renamed_abstractAll ak rands)
      intro rands
      apply Renamed.ok
      rw [mapNames]
  | .nothing | .number _ | .text _ | .list _ | .tuple _ => by
      rw [abstractK, mapNames, abstractK]
      simp only [complain, Renamed, Error.mapNames, mapNames]

/-- Making continuations functions in some trees does not look at names. -/
theorem renamed_abstractAll (ak : String) :
    ∀ ts : List Tree,
      Renamed f (mapNamesAll f) (abstractAll ak ts) (abstractAll (f ak) (mapNamesAll f ts))
  | [] => by
      rw [mapNamesAll, abstractAll, abstractAll]
      apply Renamed.ok
      rw [mapNamesAll]
  | t :: ts => by
      rw [mapNamesAll, abstractAll, abstractAll]
      apply Renamed.bind (renamed_abstractK ak t)
      intro first
      apply Renamed.bind (renamed_abstractAll ak ts)
      intro rest
      apply Renamed.ok
      rw [mapNamesAll]

end

mutual

/-- Suspension does not look at names. -/
theorem renamed_suspend :
    ∀ t : Tree, Renamed f (mapNames f) t.suspend (t.mapNames f).suspend
  | .literal _ | .var _ => by
      simp only [mapNames, suspend]
      apply Renamed.ok
      rw [mapNames]
  | .operation _ operands => by
      rw [mapNames, suspend, suspend]
      apply Renamed.bind (renamed_suspendAll operands)
      intro operands
      apply Renamed.ok
      rw [mapNames]
  | .conditional .converted test conseq alt => by
      simp only [mapNames, suspend]
      apply Renamed.bind (renamed_suspend test)
      intro test
      apply Renamed.bind (renamed_suspend conseq)
      intro conseq
      apply Renamed.bind (renamed_suspend alt)
      intro alt
      apply Renamed.ok
      rw [mapNames]
  | .abstraction _ body | .definition _ _ body _ => by
      rw [mapNames, suspend, suspend]
      apply Renamed.bind (renamed_suspend body)
      intro body
      apply Renamed.ok
      simp only [delayed, mapNames, List.map_nil]
  | .application rator rands => by
      rw [mapNames, suspend, suspend]
      apply Renamed.bind (renamed_suspend rator)
      intro rator
      apply Renamed.bind (renamed_suspendAll rands)
      intro rands
      apply Renamed.ok
      rw [mapNames]
  | .conditional .plain _ _ _ | .conditional .trivial _ _ _ | .conditional .serious _ _ _
  | .continuation _ _ | .resumption _ _ | .blank | .entry _ _ _ _ _ | .program _ _ | .nothing
  | .number _ | .text _ | .list _ | .tuple _ => by
      simp only [mapNames, suspend, complain, Renamed, Error.mapNames]

/-- Suspension of some trees does not look at names. -/
theorem renamed_suspendAll :
    ∀ ts : List Tree, Renamed f (mapNamesAll f) (suspendAll ts) (suspendAll (mapNamesAll f ts))
  | [] => by
      rw [mapNamesAll, suspendAll]
      apply Renamed.ok
      rw [mapNamesAll]
  | t :: ts => by
      rw [mapNamesAll, suspendAll, suspendAll]
      apply Renamed.bind (renamed_suspend t)
      intro first
      apply Renamed.bind (renamed_suspendAll ts)
      intro rest
      apply Renamed.ok
      rw [mapNamesAll]

end

end Tree

/-! ### Stages that draw names -/

/-- The source of names that starts later by an amount. -/
def NameSource.later (names : NameSource) (amount : Int) : NameSource :=
  ⟨names.start + amount, names.next + amount⟩

/-- Where the second computation starts later by an amount, it has the outcome of the first with the
names renumbered, and the names that are left are later by that amount too. -/
def Renumbered {α : Type} (amount : Int) (g : α → α) (x y : Drawing α) : Prop :=
  ∀ names, 0 ≤ names.next → 0 ≤ names.next + amount → match x names with
    | .ok a names' =>
      names.next ≤ names'.next ∧ y (names.later amount) = .ok (g a) (names'.later amount)
    | .error e names' =>
      y (names.later amount) = .error (e.mapNames (renumber amount)) (names'.later amount)

namespace Renumbered

variable {α β : Type} {amount : Int}

/-- A value is renumbered. -/
theorem pure {g : α → α} {a b : α} (h : b = g a) :
  Renumbered amount g (pure a) (pure b)
  := by
  intro names _ _
  rw [h]
  exact ⟨le_refl _, rfl⟩

/-- A name that is drawn is renumbered. -/
theorem fresh (base : String) :
  Renumbered amount (renumber amount) (.fresh base) (.fresh base)
  := by
  intro names hfirst _
  refine ⟨Int.le_add_one (le_refl _), ?_⟩
  dsimp only [Drawing.fresh, NameSource.fresh, NameSource.later]
  rw [renumber_nameOf amount base hfirst, Int.add_right_comm]

/-- An error is renumbered. -/
theorem throw {g : α → α} {e e' : Error} (h : e' = e.mapNames (renumber amount)) :
  Renumbered amount g (throw e) (throw e')
  := by
  intro names _ _
  rw [h]
  rfl

/-- A step that draws no names is renumbered if its outcome is. -/
theorem lift {g : α → α} {x y : Except Error α} (h : Renamed (renumber amount) g x y) :
  Renumbered amount g (.lift x) (.lift y)
  := by
  cases x with
  | ok a =>
    cases h
    apply pure rfl
  | error e =>
    cases h
    apply throw rfl

/-- Steps are renumbered one after the other. -/
theorem bind {g : α → α} {g' : β → β} {x y : Drawing α} {h h' : α → Drawing β}
    (hx : Renumbered amount g x y) (hh : ∀ a, Renumbered amount g' (h a) (h' (g a))) :
  Renumbered amount g' (x >>= h) (y >>= h')
  := by
  intro names hfirst hsecond
  have hstep := hx names hfirst hsecond
  cases hrun : x names with
  | ok a names' =>
    rw [hrun] at hstep
    obtain ⟨hle, hy⟩ := hstep
    have hrest := hh a names' (by omega) (by omega)
    rw [bind_of_ok hrun, bind_of_ok hy]
    cases hrun' : h a names' with
    | ok b names'' =>
      rw [hrun'] at hrest
      exact ⟨hle.trans hrest.1, hrest.2⟩
    | error e names'' =>
      rw [hrun'] at hrest
      exact hrest
  | error e names' =>
    rw [hrun] at hstep
    rw [bind_of_error hrun, bind_of_error hstep]

end Renumbered

namespace Tree

variable (amount : Int)

mutual

/-- Conversion does not look at names. -/
theorem renumbered_drawNode :
    ∀ (k? : Option Tree) (t : Tree), Renumbered amount (mapNames (renumber amount)) (drawNode k? t)
      (drawNode (k?.map (mapNames (renumber amount))) (t.mapNames (renumber amount)))
  | k?, .literal _ | k?, .var _ | k?, .continuation _ _ => by
      rw [mapNames, drawNode, drawNode]
      apply Renumbered.pure
      rw [mapNames_deliver, mapNames]
  | k?, .abstraction params body => by
      rw [mapNames, drawNode, drawNode]
      apply Renumbered.bind (.fresh "k")
      intro k
      apply Renumbered.bind (renumbered_drawNode (some (var k)) body)
      intro body
      apply Renumbered.pure
      rw [mapNames_deliver, mapNames, List.map_append, List.map_singleton]
  | k?, .operation op operands => by
      rw [mapNames, drawNode.eq_def, drawNode.eq_def]
      dsimp only
      rw [allTrivial_mapNamesAll]
      split
      · apply Renumbered.bind (renumbered_drawValues operands)
        intro operands
        apply Renumbered.pure
        rw [mapNames_deliver, mapNames]
      cases k? with
      | none =>
        apply Renumbered.throw
        rw [Error.mapNames, mapNames]
      | some k =>
        apply Renumbered.bind (renumbered_drawParts operands)
        rintro ⟨parts, pending⟩
        have h := renumbered_drawPending operands pending (resumption k (operation op parts))
        rwa [mapNames, mapNames] at h
  | k?, .conditional .trivial test conseq alt => by
      rw [mapNames, drawNode.eq_def, drawNode.eq_def]
      apply Renumbered.bind (renumbered_drawNode none test)
      intro test
      apply Renumbered.bind (renumbered_drawNode none conseq)
      intro conseq
      apply Renumbered.bind (renumbered_drawNode none alt)
      intro alt
      apply Renumbered.pure
      rw [mapNames_deliver, mapNames]
  | some k, .conditional .serious test conseq alt => by
      rw [mapNames, drawNode.eq_def, drawNode.eq_def]
      apply Renumbered.bind (renumbered_drawNode (some k) conseq)
      intro conseq
      apply Renumbered.bind (renumbered_drawNode (some k) alt)
      intro alt
      rw [isTrivial_mapNames]
      split
      · apply Renumbered.bind (renumbered_drawNode none test)
        intro test
        apply Renumbered.pure
        rw [mapNames]
      · apply Renumbered.bind (.fresh "s")
        intro s
        have h := renumbered_drawNode
          (some (continuation s (conditional .converted (var s) conseq alt))) test
        rwa [Option.map_some, mapNames, mapNames, mapNames] at h
  | k?, .conditional .converted test conseq alt => by
      rw [mapNames, drawNode.eq_def, drawNode.eq_def]
      apply Renumbered.pure
      rw [mapNames_deliver, mapNames]
  | some _, .conditional .plain _ _ _ | none, .conditional .plain _ _ _
  | none, .conditional .serious _ _ _ => by
      rw [mapNames, drawNode.eq_def, drawNode.eq_def]
      apply Renumbered.throw
      rw [Error.mapNames, mapNames]
  | none, .application rator rands => by
      rw [mapNames, drawNode.eq_def, drawNode.eq_def]
      apply Renumbered.throw
      rw [Error.mapNames, mapNames]
  | some k, .application rator rands => by
      rw [mapNames, drawNode.eq_def, drawNode.eq_def]
      dsimp only [Option.map_some]
      rw [isTrivial_mapNames]
      split
      · apply Renumbered.bind (renumbered_drawNode none rator)
        intro function
        apply Renumbered.bind (renumbered_drawParts rands)
        rintro ⟨parts, pending⟩
        have h := renumbered_drawPending rands pending (application function (parts ++ [k]))
        rwa [mapNames, mapNamesAll_eq_map _ (parts ++ [k]), List.map_append, List.map_singleton,
          ← mapNamesAll_eq_map] at h
      · apply Renumbered.bind (.fresh "s")
        intro s
        apply Renumbered.bind (renumbered_drawParts rands)
        rintro ⟨parts, pending⟩
        have h := renumbered_drawPending rands pending (application (var s) (parts ++ [k]))
        rw [mapNames, mapNames, mapNamesAll_eq_map _ (parts ++ [k]), List.map_append,
          List.map_singleton, ← mapNamesAll_eq_map] at h
        apply Renumbered.bind h
        intro rest
        have h := renumbered_drawNode (some (continuation s rest)) rator
        rwa [Option.map_some, mapNames] at h
  | some _, .definition _ _ _ _ | none, .definition _ _ _ _ => by
      rw [mapNames, drawNode.eq_def, drawNode.eq_def]
      apply Renumbered.throw
      rw [Error.mapNames, mapNames]
  | some _, .blank | some _, .resumption _ _ | some _, .entry _ _ _ _ _ | some _, .program _ _
  | some _, .nothing | some _, .number _ | some _, .text _ | some _, .list _ | some _, .tuple _
  | none, .blank | none, .resumption _ _ | none, .entry _ _ _ _ _ | none, .program _ _
  | none, .nothing | none, .number _ | none, .text _ | none, .list _ | none, .tuple _ => by
      rw [mapNames, drawNode.eq_def, drawNode.eq_def]
      apply Renumbered.throw
      rw [Error.mapNames, mapNames]

/-- Conversion of trivial trees does not look at names. -/
theorem renumbered_drawValues :
    ∀ ts : List Tree, Renumbered amount (mapNamesAll (renumber amount)) (drawValues ts)
      (drawValues (mapNamesAll (renumber amount) ts))
  | [] => by
      rw [mapNamesAll, drawValues]
      apply Renumbered.pure
      rw [mapNamesAll]
  | t :: ts => by
      rw [mapNamesAll, drawValues, drawValues]
      apply Renumbered.bind (renumbered_drawNode none t)
      intro first
      apply Renumbered.bind (renumbered_drawValues ts)
      intro rest
      apply Renumbered.pure
      rw [mapNamesAll]

/-- Conversion of parts does not look at names. -/
theorem renumbered_drawParts :
    ∀ ts : List Tree, Renumbered amount
      (Prod.map (mapNamesAll (renumber amount)) (List.map (Option.map (renumber amount))))
      (drawParts ts) (drawParts (mapNamesAll (renumber amount) ts))
  | [] => by
      rw [mapNamesAll, drawParts]
      apply Renumbered.pure
      rw [Prod.map, mapNamesAll]
      rfl
  | t :: ts => by
      rw [mapNamesAll, drawParts, drawParts, isTrivial_mapNames]
      split
      · apply Renumbered.bind (renumbered_drawNode none t)
        intro value
        apply Renumbered.bind (renumbered_drawParts ts)
        rintro ⟨values, pending⟩
        apply Renumbered.pure
        rw [Prod.map, mapNamesAll]
        rfl
      · apply Renumbered.bind (.fresh "s")
        intro s
        apply Renumbered.bind (renumbered_drawParts ts)
        rintro ⟨values, pending⟩
        apply Renumbered.pure
        rw [Prod.map, mapNamesAll, mapNames]
        rfl

/-- Conversion of what is computed first does not look at names. -/
theorem renumbered_drawPending :
    ∀ (ts : List Tree) (pending : List (Option String)) (result : Tree),
      Renumbered amount (mapNames (renumber amount)) (drawPending ts pending result)
        (drawPending (mapNamesAll (renumber amount) ts) (pending.map (Option.map (renumber amount)))
          (result.mapNames (renumber amount)))
  | [], pending, result => by
      rw [mapNamesAll, drawPending, drawPending]
      · apply Renumbered.pure rfl
      all_goals intros; contradiction
  | t :: ts, [], result => by
      rw [mapNamesAll, List.map_nil, drawPending, drawPending]
      · apply Renumbered.pure rfl
      all_goals intros; contradiction
  | t :: ts, none :: pending, result => by
      rw [mapNamesAll, List.map_cons, Option.map_none, drawPending, drawPending]
      apply renumbered_drawPending ts pending result
  | t :: ts, some s :: pending, result => by
      rw [mapNamesAll, List.map_cons, Option.map_some, drawPending, drawPending]
      apply Renumbered.bind (renumbered_drawPending ts pending result)
      intro result
      have h := renumbered_drawNode (some (continuation s result)) t
      rwa [Option.map_some, mapNames] at h

end

/-- Conversion of a body in front of a variable does not look at names. -/
theorem renumbered_drawBody (t : Tree) (k : String) :
  Renumbered amount (mapNames (renumber amount)) (drawBody t k)
    (drawBody (t.mapNames (renumber amount)) (renumber amount k))
  := by
  unfold drawBody
  rw [isNode_mapNames]
  split
  · apply Renumbered.throw
    rw [Error.mapNames]
  · have h := renumbered_drawNode amount (some (var k)) t
    rwa [Option.map_some, mapNames] at h

/-- Making an entry does not look at names. -/
theorem renumbered_drawEntry (t : Tree) :
  Renumbered amount (mapNames (renumber amount)) t.drawEntry
    (t.mapNames (renumber amount)).drawEntry
  := by
  cases t with
  | definition name params body own =>
    rw [mapNames, drawEntry.eq_def, drawEntry.eq_def]
    dsimp only
    rw [List.getLast?_map, isDelayed_mapNames]
    cases own with
    | none =>
      apply Renumbered.throw
      rw [Error.mapNames, mapNames]
    | some own =>
      cases params.getLast? with
      | none =>
        apply Renumbered.throw
        rw [Error.mapNames, mapNames]
      | some k =>
        dsimp only [Option.map_some]
        split
        · apply Renumbered.bind (.fresh "done")
          intro flag
          apply Renumbered.pure
          rw [mapNames, mapNames, List.map_dropLast, Option.map_none]
        · apply Renumbered.throw
          rw [Error.mapNames, mapNames, Option.map_some]
  | _ =>
    simp only [mapNames, drawEntry]
    apply Renumbered.throw
    rw [Error.mapNames, mapNames]

/-- Making entries does not look at names. -/
theorem renumbered_drawEntries (ts : List Tree) :
  Renumbered amount (mapNamesAll (renumber amount)) (drawEntries ts)
    (drawEntries (mapNamesAll (renumber amount) ts))
  := by
  induction ts with
  | nil =>
    rw [mapNamesAll, drawEntries]
    apply Renumbered.pure
    rw [mapNamesAll]
  | cons t ts ih =>
    rw [mapNamesAll, drawEntries, drawEntries]
    apply Renumbered.bind (renumbered_drawEntry amount t)
    intro first
    apply Renumbered.bind ih
    intro rest
    apply Renumbered.pure
    rw [mapNamesAll]

end Tree

/-! ### Compilation -/

/-- The names of a definition do not end in numbers. -/
def Definition.IsUnnumbered (d : Definition) : Prop :=
  ∀ x ∈ d.toTree.names, ¬ isNumbered x

/-- What a form stands for has no name with a number, if neither the form nor the entry has one. -/
theorem Definition.isUnnumbered_ofForm {entry : String} {t : Tree}
    (h : ∀ x ∈ t.names, ¬ isNumbered x) (hentry : ¬ isNumbered entry) :
  (ofForm entry t).IsUnnumbered
  := by
  intro x hx
  rcases List.mem_cons.mp hx with rfl | hx
  · rcases name_ofForm entry t with hname | hname
    · apply h _ hname
    · rwa [hname]
  · apply h x
    apply mem_names_of_ofForm hx

section Compilation

variable {amount : Int}

/-- A definition whose names have no numbers stays as it is. -/
theorem Definition.mapNames_toTree {d : Definition} (hd : Surface true d.body)
    (h : d.IsUnnumbered) :
  d.toTree.mapNames (renumber amount) = d.toTree
  := by
  apply Tree.mapNames_eq_self (.definition d.name d.params rfl hd)
  intro x hx
  apply renumber_of_not_isNumbered amount (h x hx)

/-- Conversion of a definition whose names have no numbers depends on the counter only through
numbers. -/
theorem renumbered_drawDefinition {d : Definition} (hd : Surface true d.body)
    (h : d.IsUnnumbered) :
  Renumbered amount (Tree.mapNames (renumber amount)) d.toTree.drawDefinition
    d.toTree.drawDefinition
  := by
  have hself := @Definition.mapNames_toTree amount d hd h
  rw [Definition.toTree, Tree.mapNames, Tree.definition.injEq] at hself
  obtain ⟨hname, hparams, hbody, -⟩ := hself
  have hnames : ∀ x ∈ d.body.names, renumber amount x = x := by
    intro x hx
    apply renumber_of_not_isNumbered
    apply h x
    exact List.mem_append_right _ hx
  rw [Definition.toTree, Tree.drawDefinition]
  apply Renumbered.bind (.fresh d.name)
  intro own
  apply Renumbered.bind (.fresh "k")
  intro k
  have hrest : ∀ body, Renumbered amount (Tree.mapNames (renumber amount))
      (Tree.drawBody body k >>= fun body =>
        pure (.definition d.name (d.params ++ [k]) body (some own)))
      (Tree.drawBody (body.mapNames (renumber amount)) (renumber amount k) >>= fun body =>
        pure (.definition d.name (d.params ++ [renumber amount k]) body
          (some (renumber amount own)))) := by
    intro body
    apply Renumbered.bind (Tree.renumbered_drawBody amount body k)
    intro body
    apply Renumbered.pure
    rw [Tree.mapNames, hname, List.map_append, hparams, List.map_singleton, Option.map_some]
  dsimp only
  split
  · apply Renumbered.bind (Renumbered.pure hbody.symm) hrest
  · rw [Renaming.rename_eq hd, Renaming.rename_eq hd]
    apply Renumbered.bind (.lift (.ok _)) hrest
    rw [Tree.mapNames_renamed hd hnames, Option.map_some]

/-- The compilation of such a definition depends on the counter only through numbers. -/
theorem renumbered_definition (ak : String) {d : Definition} (hd : Surface true d.body)
    (h : d.IsUnnumbered) :
  Renumbered amount (Tree.mapNames (renumber amount)) (.definition ak d.toTree)
    (.definition (renumber amount ak) d.toTree)
  := by
  apply Renumbered.bind (renumbered_drawDefinition hd h)
  intro converted
  apply Renumbered.bind (.lift (Tree.renamed_abstractK _ ak converted))
  intro abstracted
  apply Renumbered.lift (Tree.renamed_suspend _ abstracted)

/-- The compilation of forms whose names have no numbers depends on the counter only through
numbers. -/
theorem renumbered_definitions {entry : String} (ak : String) {forms : List Tree}
    (hforms : ∀ t ∈ forms, Surface true t ∧ (Definition.ofForm entry t).IsUnnumbered)
    (seen : List String) :
  Renumbered amount (Tree.mapNamesAll (renumber amount)) (.definitions (.text entry) ak seen forms)
    (.definitions (.text entry) (renumber amount ak) seen forms)
  := by
  induction forms generalizing seen with
  | nil =>
    apply Renumbered.pure
    rw [Tree.mapNamesAll]
  | cons form forms ih =>
    obtain ⟨⟨hform, hunnumbered⟩, hforms⟩ := List.forall_mem_cons.mp hforms
    obtain ⟨hwrap, hbody⟩ := wrapEntry_eq entry hform
    rw [Drawing.definitions, Drawing.definitions, hwrap, Drawing.lift, pure_bind, pure_bind]
    dsimp only
    split
    · apply Renumbered.throw
      rw [Error.mapNames, Definition.mapNames_toTree hbody hunnumbered]
    · apply Renumbered.bind (renumbered_definition ak hbody hunnumbered)
      intro first
      apply Renumbered.bind (ih hforms _)
      intro rest
      apply Renumbered.pure
      rw [Tree.mapNamesAll]

/-- The helpers are named by later numbers. -/
theorem helpersAt_add {n : Int} (hn : 0 ≤ n) (amount : Int) :
  (helpersAt n).map (fun h => (h.1, renumber amount h.2)) = helpersAt (n + amount)
  := by
  have hname : ∀ (base : String) (i : Int), 0 ≤ i →
      renumber amount (nameOf base (n + i)) = nameOf base (n + amount + i) := by
    intro base i hi
    rw [renumber_nameOf amount base (by omega), Int.add_right_comm]
  simp only [helpersAt, applyKName, List.map_cons, List.map_nil, renumber_nameOf amount _ hn,
    hname _ 1 (by decide), hname _ 2 (by decide), hname _ 3 (by decide)]

/-- The compilation of a program with the helpers from some number on depends on that only through
numbers. -/
theorem renumbered_programWith {entry : String} {forms : List Tree}
    (hforms : ∀ t ∈ forms, Surface true t ∧ (Definition.ofForm entry t).IsUnnumbered) {n : Int}
    (hn : 0 ≤ n) :
  Renumbered amount (Tree.mapNames (renumber amount))
    (.programWith (.text entry) (helpersAt n) forms)
    (.programWith (.text entry) (helpersAt (n + amount)) forms)
  := by
  have hak : ((helpersAt (n + amount)).lookup Helper.applyK.role).getD ""
      = renumber amount (((helpersAt n).lookup Helper.applyK.role).getD "") := by
    apply (renumber_nameOf amount _ hn).symm
  rw [Drawing.programWith, Drawing.programWith, hak]
  apply Renumbered.bind (renumbered_definitions _ hforms [])
  intro definitions
  apply Renumbered.bind (Tree.renumbered_drawEntries amount definitions)
  intro entries
  apply Renumbered.pure
  rw [Tree.programOf, Tree.programOf, sorted_helpersAt, sorted_helpersAt, Tree.mapNames,
    helpersAt_add hn]

/-- The compilation of a program from forms whose names have no numbers depends on the counter only
through numbers. -/
theorem renumbered_program {entry : String} {forms : List Tree}
    (hforms : ∀ t ∈ forms, Surface true t ∧ (Definition.ofForm entry t).IsUnnumbered) :
  Renumbered amount (Tree.mapNames (renumber amount)) (.program (.text entry) forms)
    (.program (.text entry) forms)
  := by
  -- the helpers are drawn from the counter itself, so that the first step is taken by hand
  rintro ⟨start, n⟩ hn hlater
  dsimp only at hn hlater
  have hhelpers : ∀ start n, Drawing.helpers ⟨start, n⟩ = .ok (helpersAt n) ⟨start, n + 4⟩ := by
    intro start n
    rw [Drawing.helpers, helperNames_eq]
  have hrest := @renumbered_programWith amount entry forms hforms n hn ⟨start, n + 4⟩
    (by dsimp only; omega) (by dsimp only; omega)
  rw [Drawing.program, bind_of_ok (hhelpers start n), NameSource.later,
    bind_of_ok (hhelpers (start + amount) (n + amount)), Int.add_right_comm n amount 4]
  cases hrun : Drawing.programWith (.text entry) (helpersAt n) forms ⟨start, n + 4⟩ with
  | ok program names =>
    rw [hrun] at hrest
    obtain ⟨hle, hprogram⟩ := hrest
    dsimp only at hle ⊢
    exact ⟨by omega, hprogram⟩
  | error e names =>
    rw [hrun] at hrest
    exact hrest

end Compilation

/-! ### Two runs -/

namespace Drawing

variable {α : Type}

/-- The value or the error of a computation. -/
def outcome (x : Drawing α) (names : NameSource) : Except Error α :=
  match x names with
  | .ok a _ => .ok a
  | .error e _ => .error e

/-- How many names a computation draws, whether it fails or not. -/
def drawn (x : Drawing α) (names : NameSource) : Int :=
  match x names with
  | .ok _ names' => names'.next - names.next
  | .error _ names' => names'.next - names.next

end Drawing

/-- The result of a compilation is the outcome of the computation that accounts for it. -/
theorem Accounts.result_eq {α : Type} {x : Drawing α} {c : Compile α} (h : Accounts x c)
    (names : NameSource) :
  c.result names = x.outcome names
  := by
  have hrun := h ⟨names, []⟩
  dsimp only at hrun
  rw [Compile.result, EStateM.run, Drawing.outcome]
  cases hx : x names with
  | ok a names' =>
    rw [hx] at hrun
    obtain ⟨notes, hc⟩ := hrun
    rw [hc]
  | error e names' =>
    rw [hx] at hrun
    obtain ⟨p, hc⟩ := hrun
    rw [hc]

/-- A computation that starts later has the outcome with the names renumbered, and draws equally
many names. -/
theorem Renumbered.outcome {α : Type} {amount : Int} {g : α → α} {x y : Drawing α}
    (h : Renumbered amount g x y) {names : NameSource} (hn : 0 ≤ names.next)
    (hlater : 0 ≤ names.next + amount) :
  Renamed (renumber amount) g (x.outcome names) (y.outcome (names.later amount))
    ∧ y.drawn (names.later amount) = x.drawn names
  := by
  have hrun := h names hn hlater
  unfold Drawing.outcome Drawing.drawn
  cases hx : x names with
  | ok a names' =>
    rw [hx] at hrun
    rw [hrun.2]
    refine ⟨.ok rfl, ?_⟩
    dsimp only [NameSource.later]
    omega
  | error e names' =>
    rw [hx] at hrun
    rw [hrun]
    refine ⟨.error e, ?_⟩
    dsimp only [NameSource.later]
    omega

/-- **Compilation depends on the counter only through numbers.** Let no name of some forms that were
read end in a number, nor the name of the entry. Then compiled from the number `t` on, the forms
have the outcome that they have from the number `s` on, with `t - s` added to the number at the end
of every name: the same program, or the same error about the same tree. Both runs draw equally many
names, where these are counted by a computation that has the value, the names and the error of the
compilation and keeps the names that are left when it fails. -/
theorem compileForms_renumbered
    {entry : String} (runtime : Tree) {forms : List Tree} {s t : Int} (hs : 0 ≤ s) (ht : 0 ≤ t)
    (hread : ∀ form ∈ forms, form.IsRead) (hforms : ∀ x ∈ Tree.namesAll forms, ¬ isNumbered x)
    (hentry : ¬ isNumbered entry) :
  Renamed (renumber (t - s)) (Tree.mapNames (renumber (t - s)))
      ((compileForms ⟨.text entry, runtime⟩ forms).result (.startingAt s))
      ((compileForms ⟨.text entry, runtime⟩ forms).result (.startingAt t))
    ∧ Accounts (.program (.text entry) forms) (compileForms ⟨.text entry, runtime⟩ forms)
    ∧ (Drawing.program (.text entry) forms).drawn (.startingAt t)
      = (Drawing.program (.text entry) forms).drawn (.startingAt s)
  := by
  have haccounts := accounts_program (.text entry) runtime forms
  have hunnumbered : ∀ form ∈ forms,
      Surface true form ∧ (Definition.ofForm entry form).IsUnnumbered := by
    intro form hform
    obtain ⟨text, ts, hts, hmem⟩ := hread form hform
    refine ⟨surface_of_readAll hts hmem, ?_⟩
    apply Definition.isUnnumbered_ofForm _ hentry
    intro x hx
    apply hforms x
    rw [Tree.mem_namesAll]
    exact ⟨form, hform, hx⟩
  have hlater : (NameSource.startingAt s).later (t - s) = .startingAt t := by
    dsimp only [NameSource.later, NameSource.startingAt]
    rw [show s + (t - s) = t by omega]
  have hprogram := @renumbered_program (t - s) entry forms hunnumbered
  have hnext : 0 ≤ (NameSource.startingAt s).next + (t - s) := by
    dsimp only [NameSource.startingAt]
    omega
  obtain ⟨houtcome, hdrawn⟩ := hprogram.outcome hs hnext
  rw [hlater] at houtcome hdrawn
  rw [haccounts.result_eq, haccounts.result_eq]
  exact ⟨houtcome, haccounts, hdrawn⟩

/-- A definition with another one inside, which is met after some names have been drawn. -/
def nestingText : String :=
  "(defn f (x) (+ (f x) (fn () (defn g () (f x)))))"

/-- From 0 on and from 7 on, compilation fails in the same way, and after eight names. -/
theorem compileForms_renumbered_nestingText :
  ∃ forms, Tree.readAll nestingText = .ok forms
    ∧ ((compileForms {} forms).result (.startingAt 0)).isOk = false
    ∧ Renamed (renumber 7) (Tree.mapNames (renumber 7))
      ((compileForms {} forms).result (.startingAt 0))
      ((compileForms {} forms).result (.startingAt 7))
    ∧ (Drawing.program (.text "main") forms).drawn (.startingAt 0) = 8
    ∧ (Drawing.program (.text "main") forms).drawn (.startingAt 7) = 8
  := by
  have hread : (Tree.readAll nestingText).toOption.any (fun forms =>
      (∀ x ∈ Tree.namesAll forms, ¬ isNumbered x)
        ∧ ((compileForms {} forms).result (.startingAt 0)).isOk = false
        ∧ (Drawing.program (.text "main") forms).drawn (.startingAt 0) = 8) := by
    decide +kernel
  obtain ⟨forms, hforms, htest⟩ := exists_of_any hread
  obtain ⟨hnames, herror, hdrawn⟩ := of_decide_eq_true htest
  have hisRead : ∀ form ∈ forms, form.IsRead := by
    intro form hform
    exact ⟨nestingText, forms, hforms, hform⟩
  obtain ⟨hrenamed, -, hequal⟩ := @compileForms_renumbered "main" (.text defaultModule) forms 0 7
    (by decide) (by decide) hisRead hnames (by decide)
  exact ⟨forms, hforms, herror, hrenamed, hdrawn, hequal.trans hdrawn⟩

end Springboard
