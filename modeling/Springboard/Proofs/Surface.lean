import Springboard.Proofs.Comparison
import Springboard.Source.Surface

/-!
# Surface trees

The trees that forms stand for: variables, literals, operations with as many operands as they
accept, conditionals that are classified, functions, definitions and applications. What the
compiler can convert are those of them without a definition inside.
-/

namespace Springboard

/-- The results of a sequence of steps that may fail. -/
theorem Except.bind_eq_ok {ε α β : Type} {x : Except ε α} {f : α → Except ε β} {b : β} :
  (x >>= f) = .ok b ↔ ∃ a, x = .ok a ∧ f a = .ok b
  := by
  cases x with
  | error e =>
    constructor
    · intro h
      contradiction
    · rintro ⟨a, h, -⟩
      contradiction
  | ok a =>
    constructor
    · intro h
      exact ⟨a, rfl, h⟩
    · rintro ⟨a', h, hf⟩
      cases h
      exact hf

/-- The results of a sequence of steps that may fail and change a state. -/
theorem StateT.bind_eq_ok
    {ε σ α β : Type} {x : StateT σ (Except ε) α} {f : α → StateT σ (Except ε) β} {s : σ} {r : β × σ} :
  (x >>= f) s = .ok r ↔ ∃ a s', x s = .ok (a, s') ∧ f a s' = .ok r
  := by
  have hbind : (x >>= f) s = (x s >>= fun p => f p.1 p.2) := by
    rfl
  rw [hbind, Except.bind_eq_ok, Prod.exists]

/-- The trees of the surface syntax. Definitions may stand inside if they may be `nested`. -/
inductive Surface (nested : Bool) : Tree → Prop
  | literal (value : Number) : Surface nested (.literal value)
  | var (name : String) : Surface nested (.var name)
  | operation {op : Operator} {operands : List Tree} (hcount : op.accepts operands.length)
      (hoperands : ∀ t ∈ operands, Surface nested t) : Surface nested (.operation op operands)
  | trivialConditional {test conseq alt : Tree}
      (htrivial : test.isTrivial ∧ conseq.isTrivial ∧ alt.isTrivial)
      (htest : Surface nested test) (hconseq : Surface nested conseq) (halt : Surface nested alt) :
      Surface nested (.conditional .trivial test conseq alt)
  | seriousConditional {test conseq alt : Tree}
      (htest : Surface nested test) (hconseq : Surface nested conseq) (halt : Surface nested alt) :
      Surface nested (.conditional .serious test conseq alt)
  | abstraction (params : List String) {body : Tree} (hbody : Surface nested body) :
      Surface nested (.abstraction params body)
  | definition (name : String) (params : List String) {body : Tree} (hnested : nested = true)
      (hbody : Surface nested body) : Surface nested (.definition name params body none)
  | application {rator : Tree} {rands : List Tree} (hrator : Surface nested rator)
      (hrands : ∀ t ∈ rands, Surface nested t) : Surface nested (.application rator rands)

namespace Surface

/-- A conditional of surface trees is one, however it is classified. -/
theorem choose
    {nested : Bool} {test conseq alt : Tree}
    (htest : Surface nested test) (hconseq : Surface nested conseq) (halt : Surface nested alt) :
  Surface nested (Tree.choose test conseq alt)
  := by
  unfold Tree.choose
  split
  · rename_i h
    simp only [Bool.and_eq_true] at h
    exact .trivialConditional ⟨h.1.1, h.1.2, h.2⟩ htest hconseq halt
  · exact .seriousConditional htest hconseq halt

end Surface

/-- The trees that forms mean, by how they are put together. Each conditional is classified by its
parts, those of the connectives included. -/
inductive Built : Tree → Prop
  | literal (value : Number) : Built (.literal value)
  | var (name : String) : Built (.var name)
  | operation {op : Operator} {operands : List Tree} (hcount : op.accepts operands.length)
      (hoperands : ∀ t ∈ operands, Built t) : Built (.operation op operands)
  | choose {test conseq alt : Tree} (htest : Built test) (hconseq : Built conseq)
      (halt : Built alt) : Built (.choose test conseq alt)
  | abstraction (params : List String) {body : Tree} (hbody : Built body) :
      Built (.abstraction params body)
  | definition (name : String) (params : List String) {body : Tree} (hbody : Built body) :
      Built (.definition name params body none)
  | application {rator : Tree} {rands : List Tree} (hrator : Built rator)
      (hrands : ∀ t ∈ rands, Built t) : Built (.application rator rands)

namespace Built

/-- What forms mean are surface trees. -/
theorem surface {t : Tree} (h : Built t) : Surface true t := by
  induction h with
  | literal value => exact .literal value
  | var name => exact .var name
  | operation hcount _ ih => exact .operation hcount ih
  | choose _ _ _ ihtest ihconseq ihalt => exact .choose ihtest ihconseq ihalt
  | abstraction params _ ih => exact .abstraction params ih
  | definition name params _ ih => exact .definition name params rfl ih
  | application _ _ ihrator ihrands => exact .application ihrator ihrands

/-- A connective is put together from what its operands mean. -/
theorem combine (c : Connective) {first others : Tree} (hfirst : Built first)
    (hothers : Built others) :
  Built (c.combine first others)
  := by
  have hbranch : ∀ {t : Tree}, Built t → Built (c.branch t others) := by
    intro t ht
    cases c with
    | and => exact choose ht hothers ht
    | or => exact choose ht ht hothers
  unfold Connective.combine
  split
  · exact hbranch hfirst
  · refine .application (.abstraction _ (hbranch (.var _))) ?_
    intro t ht
    rw [List.mem_singleton.mp ht]
    exact hfirst

end Built

namespace Form

mutual

/-- The tree of a form is put together in one of these ways. -/
theorem built_of_surface : ∀ (f : Form) (t : Tree), f.surface = .ok t → Built t
  | .symbol _ text, t, h => by
      rw [surface] at h
      cases h
      exact .var text
  | .number value, t, h => by
      rw [surface] at h
      cases h
      exact .literal value
  | .group place bracket members, t, h => by
      rw [surface] at h
      exact built_of_surfaceGroup _ members t h

/-- So is the tree of a group. -/
theorem built_of_surfaceGroup (whole : Form) :
    ∀ (members : List Form) (t : Tree), surfaceGroup whole members = .ok t → Built t
  | [], t, h => by
      rw [surfaceGroup] at h
      contradiction
  | .symbol place text :: rest, t, h => by
      rw [surfaceGroup.eq_def] at h
      dsimp only at h
      split at h
      · exact built_of_surfaceConnective whole _ rest t h
      · match rest, h with
        | [test, conseq, alt], h =>
          simp only [Except.bind_eq_ok] at h
          obtain ⟨test', htest, conseq', hconseq, alt', halt, h⟩ := h
          cases h
          exact .choose (built_of_surface test test' htest)
            (built_of_surface conseq conseq' hconseq) (built_of_surface alt alt' halt)
      · match rest, h with
        | [params, body], h =>
          simp only [Except.bind_eq_ok] at h
          obtain ⟨params', -, body', hbody, h⟩ := h
          cases h
          exact .abstraction params' (built_of_surface body body' hbody)
      · match rest, h with
        | [.symbol place name, params, body], h =>
          simp only [Except.bind_eq_ok] at h
          obtain ⟨params', -, body', hbody, h⟩ := h
          cases h
          exact .definition name params' (built_of_surface body body' hbody)
      · split at h
        · split at h
          · rename_i hcount
            rw [Except.bind_eq_ok] at h
            obtain ⟨operands, hoperands, h⟩ := h
            cases h
            obtain ⟨hlength, hbuilt⟩ := built_of_surfaceAll rest operands hoperands
            rw [← hlength] at hcount
            exact .operation hcount hbuilt
          · contradiction
        · rw [Except.bind_eq_ok] at h
          obtain ⟨rands, hrands, h⟩ := h
          cases h
          exact .application (.var text) (built_of_surfaceAll rest rands hrands).2
  | .number value :: rest, t, h => by
      rw [surfaceGroup] at h
      · simp only [Except.bind_eq_ok] at h
        obtain ⟨rator, hrator, rands, hrands, h⟩ := h
        cases h
        exact .application (built_of_surface _ rator hrator)
          (built_of_surfaceAll rest rands hrands).2
      · intros
        contradiction
  | .group place bracket members :: rest, t, h => by
      rw [surfaceGroup] at h
      · simp only [Except.bind_eq_ok] at h
        obtain ⟨rator, hrator, rands, hrands, h⟩ := h
        cases h
        exact .application (built_of_surface _ rator hrator)
          (built_of_surfaceAll rest rands hrands).2
      · intros
        contradiction

/-- So is the tree of a connective. -/
theorem built_of_surfaceConnective (whole : Form) (c : Connective) :
    ∀ (operands : List Form) (t : Tree),
      surfaceConnective whole c operands = .ok t → Built t
  | [], t, h => by
      rw [surfaceConnective] at h
      contradiction
  | first :: rest, t, h => by
      rw [surfaceConnective] at h
      split at h
      · exact built_of_surface first t h
      · simp only [Except.bind_eq_ok] at h
        obtain ⟨first', hfirst, others, hothers, h⟩ := h
        cases h
        exact .combine c (built_of_surface first first' hfirst)
          (built_of_surfaceConnective whole c rest others hothers)

/-- So are the trees of some forms, one for each form. -/
theorem built_of_surfaceAll :
    ∀ (fs : List Form) (ts : List Tree), surfaceAll fs = .ok ts →
      ts.length = fs.length ∧ ∀ t ∈ ts, Built t
  | [], ts, h => by
      rw [surfaceAll] at h
      cases h
      exact ⟨rfl, fun t ht => absurd ht List.not_mem_nil⟩
  | f :: fs, ts, h => by
      rw [surfaceAll] at h
      simp only [Except.bind_eq_ok] at h
      obtain ⟨first, hfirst, rest, hrest, h⟩ := h
      cases h
      obtain ⟨hlength, hbuilt⟩ := built_of_surfaceAll fs rest hrest
      constructor
      · rw [List.length_cons, List.length_cons, hlength]
      · intro t ht
        rcases List.mem_cons.mp ht with rfl | ht
        · exact built_of_surface f t hfirst
        · exact hbuilt t ht

end

/-- The trees of some forms are surface trees, one for each form. -/
theorem surface_of_surfaceAll (fs : List Form) (ts : List Tree) (h : surfaceAll fs = .ok ts) :
  ts.length = fs.length ∧ ∀ t ∈ ts, Surface true t
  := by
  obtain ⟨hlength, hbuilt⟩ := built_of_surfaceAll fs ts h
  exact ⟨hlength, fun t ht => (hbuilt t ht).surface⟩

end Form

/-- The trees of the forms that have a meaning are put together in these ways. -/
theorem built_of_mem_readForms {ending : Option Error} {fs : List Form} {t : Tree}
    (ht : t ∈ (readForms ending fs).items) :
  Built t
  := by
  induction fs with
  | nil => contradiction
  | cons f fs ih =>
    rw [readForms] at ht
    split at ht
    · contradiction
    · rename_i first hfirst
      rcases List.mem_cons.mp ht with rfl | ht
      · exact Form.built_of_surface f t hfirst
      · exact ih ht

/-- The trees of a text are put together in these ways. -/
theorem built_of_readAll {text : String} {ts : List Tree} (h : Tree.readAll text = .ok ts)
    {t : Tree} (ht : t ∈ ts) :
  Built t
  := by
  unfold Tree.readAll Reading.toExcept at h
  split at h
  · contradiction
  · cases h
    exact built_of_mem_readForms ht

/-- The trees of a text are surface trees. -/
theorem surface_of_readAll {text : String} {ts : List Tree} (h : Tree.readAll text = .ok ts)
    {t : Tree} (ht : t ∈ ts) :
  Surface true t
  := by
  exact (built_of_readAll h ht).surface

namespace Tree

/-! ### What stands in a tree -/

mutual

/-- The names of a surface tree: of its variables, its parameters and its definitions. -/
def names : Tree → List String
  | var name => [name]
  | operation _ operands => namesAll operands
  | conditional _ test conseq alt => names test ++ names conseq ++ names alt
  | abstraction params body => params ++ names body
  | definition name params body _ => name :: params ++ names body
  | application rator rands => names rator ++ namesAll rands
  | _ => []

/-- The names of some surface trees. -/
def namesAll : List Tree → List String
  | [] => []
  | t :: ts => names t ++ namesAll ts

end

mutual

/-- Whether a surface tree is a definition or holds one. -/
def holdsDefinition : Tree → Bool
  | definition _ _ _ _ => true
  | operation _ operands => anyHoldsDefinition operands
  | conditional _ test conseq alt =>
    holdsDefinition test || holdsDefinition conseq || holdsDefinition alt
  | abstraction _ body => holdsDefinition body
  | application rator rands => holdsDefinition rator || anyHoldsDefinition rands
  | _ => false

/-- Whether one of some surface trees is a definition or holds one. -/
def anyHoldsDefinition : List Tree → Bool
  | [] => false
  | t :: ts => holdsDefinition t || anyHoldsDefinition ts

end

mutual

/-- Whether the parameters of every function in a surface tree are distinct. -/
def hasDistinctParams : Tree → Bool
  | operation _ operands => haveDistinctParams operands
  | conditional _ test conseq alt =>
    hasDistinctParams test && hasDistinctParams conseq && hasDistinctParams alt
  | abstraction params body | definition _ params body _ =>
    decide params.Nodup && hasDistinctParams body
  | application rator rands => hasDistinctParams rator && haveDistinctParams rands
  | _ => true

/-- Whether the parameters of every function in some surface trees are distinct. -/
def haveDistinctParams : List Tree → Bool
  | [] => true
  | t :: ts => hasDistinctParams t && haveDistinctParams ts

end

/-- A name of some trees is a name of one of them. -/
theorem mem_namesAll {x : String} {ts : List Tree} :
  x ∈ namesAll ts ↔ ∃ t ∈ ts, x ∈ names t
  := by
  induction ts with
  | nil => simp [namesAll]
  | cons t ts ih => simp [namesAll, ih]

/-- Some trees are without definitions when each of them is. -/
theorem anyHoldsDefinition_eq_false {ts : List Tree} :
  anyHoldsDefinition ts = false ↔ ∀ t ∈ ts, t.holdsDefinition = false
  := by
  induction ts with
  | nil => simp [anyHoldsDefinition]
  | cons t ts ih => simp [anyHoldsDefinition, ih]

/-- Some trees have distinct parameters when each of them has. -/
theorem haveDistinctParams_iff {ts : List Tree} :
  haveDistinctParams ts ↔ ∀ t ∈ ts, t.hasDistinctParams
  := by
  induction ts with
  | nil => simp [haveDistinctParams]
  | cons t ts ih => simp [haveDistinctParams, ih]

end Tree

/-- A surface tree that holds no definition is one in which none may be nested. -/
theorem Surface.of_not_holdsDefinition
    {t : Tree} (h : Surface true t) (hflat : t.holdsDefinition = false) :
  Surface false t
  := by
  induction h with
  | literal value => exact .literal value
  | var name => exact .var name
  | operation hcount _ ih =>
    rw [Tree.holdsDefinition, Tree.anyHoldsDefinition_eq_false] at hflat
    exact .operation hcount fun t ht => ih t ht (hflat t ht)
  | trivialConditional htrivial _ _ _ ihtest ihconseq ihalt =>
    simp only [Tree.holdsDefinition, Bool.or_eq_false_iff] at hflat
    exact .trivialConditional htrivial (ihtest hflat.1.1) (ihconseq hflat.1.2) (ihalt hflat.2)
  | seriousConditional _ _ _ ihtest ihconseq ihalt =>
    simp only [Tree.holdsDefinition, Bool.or_eq_false_iff] at hflat
    exact .seriousConditional (ihtest hflat.1.1) (ihconseq hflat.1.2) (ihalt hflat.2)
  | abstraction params _ ih =>
    rw [Tree.holdsDefinition] at hflat
    exact .abstraction params (ih hflat)
  | definition name params _ _ _ =>
    rw [Tree.holdsDefinition] at hflat
    contradiction
  | application _ _ ihrator ihrands =>
    rw [Tree.holdsDefinition, Bool.or_eq_false_iff, Tree.anyHoldsDefinition_eq_false] at hflat
    exact .application (ihrator hflat.1) fun t ht => ihrands t ht (hflat.2 t ht)

end Springboard
