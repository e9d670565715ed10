import Mathlib.Logic.Relation
import Springboard.Proofs.Compilation

/-!
# The shape of compiled code

In compiled code every call is the last thing that a function does, and every function returns a
suspension at once. The grammar of such code has two kinds of trees: values, which are computed
without a call, and tails, which end in one. Main statement: the program of any text that compiles
consists of entries whose bodies are suspended tails; so throughout the program functions with
parameters suspend, suspensions stand nowhere else, and calls stand only where a suspension ends.
-/

namespace Springboard

open NameSource

/-! ### Values and tails -/

/-- The places in which compiled code can stand. -/
inductive Place
  | value | tail

/-- Compiled code: a value is computed without a call, and a tail ends in one. -/
inductive Compiled : Place → Tree → Prop
  | literal (value : Number) : Compiled .value (.literal value)
  | var (x : String) : Compiled .value (.var x)
  | operation {op : Operator} {operands : List Tree} (hcount : op.accepts operands.length)
      (hoperands : ∀ t ∈ operands, Compiled .value t) : Compiled .value (.operation op operands)
  | choice {test conseq alt : Tree} (htest : Compiled .value test) (hconseq : Compiled .value conseq)
      (halt : Compiled .value alt) : Compiled .value (.conditional .converted test conseq alt)
  | function {params : List String} {body : Tree} (hparams : params ≠ [])
      (hbody : Compiled .tail body) : Compiled .value (.abstraction params body.delayed)
  | call {rator : Tree} {rands : List Tree} (hrator : Compiled .value rator)
      (hrands : ∀ t ∈ rands, Compiled .value t) : Compiled .tail (.application rator rands)
  | branch {test conseq alt : Tree} (htest : Compiled .value test) (hconseq : Compiled .tail conseq)
      (halt : Compiled .tail alt) : Compiled .tail (.conditional .converted test conseq alt)

namespace Tree

/-- Suspended, the tree is compiled code. -/
def Becomes (place : Place) (t : Tree) : Prop :=
  ∃ u, t.suspend = .ok u ∧ Compiled place u

/-- Values are suspended one by one. -/
theorem exists_suspendAll {ts : List Tree} (h : ∀ t ∈ ts, t.Becomes .value) :
  ∃ us, suspendAll ts = .ok us ∧ us.length = ts.length ∧ ∀ u ∈ us, Compiled .value u
  := by
  induction ts with
  | nil => exact ⟨[], rfl, rfl, fun u hu => by contradiction⟩
  | cons t ts ih =>
    obtain ⟨⟨u, hu, hvalue⟩, hts⟩ := List.forall_mem_cons.mp h
    obtain ⟨us, hus, hlength, hvalues⟩ := ih hts
    refine ⟨u :: us, ?_, congrArg (· + 1) hlength, List.forall_mem_cons.mpr ⟨hvalue, hvalues⟩⟩
    rw [suspendAll, hu, hus]
    rfl

namespace Becomes

/-- An operator over values is a value. -/
theorem operation
    {op : Operator} {operands : List Tree} (hcount : op.accepts operands.length)
    (h : ∀ t ∈ operands, t.Becomes .value) :
  (Tree.operation op operands).Becomes .value
  := by
  obtain ⟨us, hus, hlength, hvalues⟩ := exists_suspendAll h
  refine ⟨.operation op us, ?_, .operation (by rwa [hlength]) hvalues⟩
  rw [suspend, hus]
  rfl

/-- A choice suspends its three parts. -/
theorem conditional
    {place : Place} {test conseq alt : Tree} (htest : test.Becomes .value)
    (hconseq : conseq.Becomes place) (halt : alt.Becomes place) :
  (Tree.conditional .converted test conseq alt).Becomes place
  := by
  obtain ⟨test', htest, hvalue⟩ := htest
  obtain ⟨conseq', hconseq, hconseq'⟩ := hconseq
  obtain ⟨alt', halt, halt'⟩ := halt
  refine ⟨.conditional .converted test' conseq' alt', ?_, ?_⟩
  · rw [suspend, htest, hconseq, halt]
    rfl
  · cases place with
    | value => exact .choice hvalue hconseq' halt'
    | tail => exact .branch hvalue hconseq' halt'

/-- A function whose body is a tail suspends it. -/
theorem abstraction
    {params : List String} {body : Tree} (hparams : params ≠ []) (h : body.Becomes .tail) :
  (Tree.abstraction params body).Becomes .value
  := by
  obtain ⟨u, hu, htail⟩ := h
  refine ⟨.abstraction params u.delayed, ?_, .function hparams htail⟩
  rw [suspend, hu]
  rfl

/-- A call of a value with values is a tail. -/
theorem application
    {rator : Tree} {rands : List Tree} (hrator : rator.Becomes .value)
    (hrands : ∀ t ∈ rands, t.Becomes .value) :
  (Tree.application rator rands).Becomes .tail
  := by
  obtain ⟨f, hf, hvalue⟩ := hrator
  obtain ⟨us, hus, -, hvalues⟩ := exists_suspendAll hrands
  refine ⟨.application f us, ?_, .call hvalue hvalues⟩
  rw [suspend, hf, hus]
  rfl

/-- A literal is a value. -/
theorem literal (value : Number) : (Tree.literal value).Becomes .value := by
  exact ⟨_, rfl, .literal value⟩

/-- A variable is a value. -/
theorem var (x : String) : (Tree.var x).Becomes .value := by
  exact ⟨_, rfl, .var x⟩

/-- A value that is handed to a value is a tail. -/
theorem handed (ak : String) {k value : Tree} (hk : k.Becomes .value) (h : value.Becomes .value) :
  (Tree.handed ak (some k) value).Becomes .tail
  := by
  apply application (var ak)
  exact List.forall_mem_cons.mpr ⟨hk, List.forall_mem_singleton.mpr h⟩

end Becomes

/-! ### Threaded trees -/

/-- However it is threaded, the tree becomes a value if it is trivial, and a tail in front of a
continuation that becomes a value. -/
def Shapes (ak : String) (t : Tree) : Prop :=
  (∀ n, t.isTrivial → (threaded ak none t n).1.Becomes .value)
    ∧ ∀ k n, Becomes .value k → (threaded ak (some k) t n).1.Becomes .tail

section Threaded

variable {ak : String}

/-- A trivial tree that becomes a value becomes a tail when it is handed on. -/
theorem shapes_of_isTrivial
    {t : Tree} (ht : Surface false t) (htrivial : t.isTrivial)
    (h : ∀ n, (threaded ak none t n).1.Becomes .value) :
  Shapes ak t
  := by
  refine ⟨fun n _ => h n, ?_⟩
  intro k n hk
  rw [threaded_of_isTrivial ak ht htrivial]
  exact hk.handed ak (h n)

/-- The parts of a tree become values. -/
theorem becomes_of_mem_threadedParts {ts : List Tree} (h : ∀ t ∈ ts, Shapes ak t) (n : Int) :
  ∀ u ∈ (threadedParts ak ts n).1.1, u.Becomes .value
  := by
  induction ts generalizing n with
  | nil =>
    rw [threadedParts]
    intro u hu
    contradiction
  | cons t ts ih =>
    obtain ⟨ht, hts⟩ := List.forall_mem_cons.mp h
    rw [threadedParts]
    split
    · rename_i htrivial
      exact List.forall_mem_cons.mpr ⟨ht.1 n htrivial, ih hts _⟩
    · exact List.forall_mem_cons.mpr ⟨.var _, ih hts _⟩

/-- Computing parts first makes a tail of a tail. -/
theorem becomes_threadedPending
    {ts : List Tree} (h : ∀ t ∈ ts, Shapes ak t) (pending : List (Option String)) {result : Tree}
    (hresult : result.Becomes .tail) (n : Int) :
  (threadedPending ak ts pending result n).1.Becomes .tail
  := by
  induction ts generalizing pending with
  | nil =>
    rw [threadedPending]
    · exact hresult
    all_goals intros; contradiction
  | cons t ts ih =>
    obtain ⟨ht, hts⟩ := List.forall_mem_cons.mp h
    match pending with
    | [] =>
      rw [threadedPending]
      · exact hresult
      all_goals intros; contradiction
    | none :: pending =>
      rw [threadedPending]
      exact ih hts pending
    | some s :: pending =>
      rw [threadedPending]
      apply ht.2
      exact .abstraction (List.cons_ne_nil s []) (ih hts pending)

/-- Threaded surface trees become values and tails. -/
theorem shapes_of_surface {t : Tree} (ht : Surface false t) : Shapes ak t := by
  induction ht with
  | literal value =>
    apply shapes_of_isTrivial (.literal value) rfl
    intro n
    rw [threaded]
    exact .literal value
  | var x =>
    apply shapes_of_isTrivial (.var x) rfl
    intro n
    rw [threaded]
    exact .var x
  | @operation op operands hcount hoperands ih =>
    have hvalue : ∀ n, (Tree.operation op (threadedParts ak operands n).1.1).Becomes .value := by
      intro n
      apply Becomes.operation
      · rw [length_threadedParts]
        exact hcount
      · exact becomes_of_mem_threadedParts ih n
    constructor
    · intro n htrivial
      rw [threaded, threadedPending_of_allTrivial ak htrivial]
      exact hvalue n
    · intro k n hk
      rw [threaded]
      exact becomes_threadedPending ih _ (hk.handed ak (hvalue n)) _
  | @trivialConditional test conseq alt htrivial htest hconseq halt ihtest ihconseq ihalt =>
    apply shapes_of_isTrivial (.trivialConditional htrivial htest hconseq halt) rfl
    intro n
    rw [threaded]
    exact .conditional (ihtest.1 _ htrivial.1) (ihconseq.1 _ htrivial.2.1) (ihalt.1 _ htrivial.2.2)
  | @seriousConditional test conseq alt htest hconseq halt ihtest ihconseq ihalt =>
    refine ⟨fun n htrivial => by contradiction, ?_⟩
    intro k n hk
    have hparts : ∀ t ∈ [test], Shapes ak t := by simpa using ihtest
    rw [threaded_conditional]
    apply becomes_threadedPending hparts
    generalize hm : (threaded ak (some k) alt (threaded ak (some k) conseq n).2).2 = m
    have hvalue := becomes_of_mem_threadedParts hparts m
    obtain ⟨test', htest'⟩ := exists_threadedParts_singleton ak test m
    rw [htest'] at hvalue ⊢
    exact .conditional (hvalue test' List.mem_cons_self) (ihconseq.2 k _ hk) (ihalt.2 k _ hk)
  | @abstraction params body hbody ih =>
    apply shapes_of_isTrivial (.abstraction params hbody) rfl
    intro n
    rw [threaded]
    apply Becomes.abstraction
    · exact List.append_ne_nil_of_right_ne_nil _ (List.cons_ne_nil _ _)
    · exact ih.2 _ _ (.var _)
  | definition name params hnested _ _ => contradiction
  | @application rator rands hrator hrands ihrator ihrands =>
    refine ⟨fun n htrivial => by contradiction, ?_⟩
    intro k n hk
    have hparts : ∀ t ∈ rator :: rands, Shapes ak t :=
      List.forall_mem_cons.mpr ⟨ihrator, ihrands⟩
    rw [threaded_application]
    apply becomes_threadedPending hparts
    have hvalue := becomes_of_mem_threadedParts hparts n
    obtain ⟨rator', rands', hvalues⟩ := exists_threadedParts_cons ak rator rands n
    rw [hvalues] at hvalue ⊢
    obtain ⟨hrator', hrands'⟩ := List.forall_mem_cons.mp hvalue
    apply Becomes.application hrator'
    intro t ht
    rcases List.mem_append.mp ht with ht | ht
    · exact hrands' t ht
    · cases List.mem_singleton.mp ht
      exact hk

end Threaded

end Tree

/-! ### Entries -/

/-- The entry of a definition: inside it is a function of the same parameters and a continuation,
whose body is a suspended tail. -/
def IsEntryOf (d : Definition) (t : Tree) : Prop :=
  ∃ k flag own body, Compiled .tail body
    ∧ t = .entry d.name d.params k flag (.definition own (d.params ++ [k]) body.delayed none)

/-- A converted definition is suspended and becomes its entry. -/
theorem exists_entryOf (ak : String) {p : Definition × Int} (h : Surface false p.1.body) :
  ∃ t, (p.1.threaded ak p.2).suspend = .ok t
    ∧ ∀ start f, ∃ e, t.toEntry ⟨start, f⟩ = .ok (e, ⟨start, f + 1⟩) ∧ IsEntryOf p.1 e
  := by
  obtain ⟨-, htail⟩ := @Tree.shapes_of_surface ak _ (Renaming.surface_tree h
    (Renaming.under (some (p.1.name, nameOf p.1.name p.2)) p.1.params))
  obtain ⟨body, hbody, htail⟩ := htail (.var (nameOf "k" (p.2 + 1))) (p.2 + 2) (.var _)
  refine ⟨.definition p.1.name (p.1.threadedParams p.2) body.delayed (some (p.1.own p.2)), ?_, ?_⟩
  · rw [Definition.threaded, Tree.suspend, Tree.threadedBody, hbody]
    rfl
  · intro start f
    exact ⟨_, Machine.toEntry_delayed _ _ _ _ _ start f, _, _, _, body, htail, rfl⟩

/-- Converted definitions are suspended and become their entries. -/
theorem exists_entriesOf (ak : String) {ps : List (Definition × Int)}
    (h : ∀ p ∈ ps, Surface false p.1.body) :
  ∃ ts, Tree.suspendAll (ps.map fun p => p.1.threaded ak p.2) = .ok ts
    ∧ ∀ start f, ∃ es names, Tree.toEntries ts ⟨start, f⟩ = .ok (es, names)
      ∧ List.Forall₂ (fun p => IsEntryOf p.1) ps es
  := by
  induction ps with
  | nil => exact ⟨[], rfl, fun start f => ⟨[], ⟨start, f⟩, rfl, .nil⟩⟩
  | cons p ps ih =>
    obtain ⟨hp, hps⟩ := List.forall_mem_cons.mp h
    obtain ⟨t, ht, hentry⟩ := exists_entryOf ak hp
    obtain ⟨ts, hts, hentries⟩ := ih hps
    refine ⟨t :: ts, ?_, ?_⟩
    · rw [List.map_cons, Tree.suspendAll, ht, hts]
      rfl
    · intro start f
      obtain ⟨e, he, hisEntry⟩ := hentry start f
      obtain ⟨es, names, hes, hareEntries⟩ := hentries start (f + 1)
      refine ⟨e :: es, names, ?_, .cons hisEntry hareEntries⟩
      rw [Tree.toEntries, Tree.naming_bind he, Tree.naming_bind hes]
      rfl

/-! ### Nodes throughout a program -/

/-- One tree stands in another, at any depth. -/
def Tree.Contains : Tree → Tree → Prop :=
  Relation.ReflTransGen fun t c => c ∈ t.children

/-- The kinds of nodes that compiled programs have. -/
def Kind.isCompiled : Kind → Bool
  | .literal | .var | .operation | .conditional .converted | .abstraction | .definition
  | .application | .entry | .program => true
  | _ => false

/-- How a node of a compiled program looks, and which children it can have. -/
structure WellPlaced (t : Tree) : Prop where
  /-- No other kinds of nodes are left. -/
  kind : t.kind?.any Kind.isCompiled
  /-- The body of a function with parameters is a suspension. -/
  suspends : ∀ params body, t = .abstraction params body → params ≠ [] → body.isDelayed
  /-- The body of a suspension is a tail. -/
  tail : ∀ body : Tree, t = body.delayed → Compiled .tail body
  /-- A suspension is the body of a function with parameters, or of the function in an entry. -/
  delayed : ∀ c ∈ t.children, c.isDelayed →
    (∃ params, params ≠ [] ∧ t = .abstraction params c) ∨ ∃ own params, t = .definition own params c none
  /-- A call is the body of a suspension or the branch of a choice. -/
  call : ∀ rator rands, .application rator rands ∈ t.children →
    t = Tree.delayed (.application rator rands)
      ∨ ∃ test conseq alt, t = .conditional .converted test conseq alt ∧ Compiled .value test
        ∧ (.application rator rands = conseq ∨ .application rator rands = alt)
  /-- A definition is the function in an entry. -/
  definition : ∀ c ∈ t.children, c.isDefinition → ∃ name params k flag, t = .entry name params k flag c

/-- The nodes that compiled programs consist of. -/
inductive Component : Tree → Prop
  | code {place : Place} {t : Tree} (h : Compiled place t) : Component t
  | suspension {body : Tree} (h : Compiled .tail body) : Component body.delayed
  | inner (own : String) (params : List String) {body : Tree} (h : Compiled .tail body) :
      Component (.definition own params body.delayed none)
  | entry {d : Definition} {t : Tree} (h : IsEntryOf d t) : Component t
  | program {es : List Tree} (helpers : List (String × String)) (h : ∀ e ∈ es, ∃ d, IsEntryOf d e) :
      Component (.program es helpers)

/-- Neither a value nor a tail is a suspension or a definition, and a value is not a call. -/
theorem Compiled.cases_of_value {t : Tree} (h : Compiled .value t) :
  t.isDelayed = false ∧ t.isDefinition = false ∧ ∀ rator rands, t ≠ .application rator rands
  := by
  cases h with
  | @function params body hparams _ =>
    refine ⟨?_, rfl, fun rator rands h => by contradiction⟩
    cases params with
    | nil => contradiction
    | cons x params => rfl
  | _ => exact ⟨rfl, rfl, fun rator rands h => by contradiction⟩

/-- A tail is neither a suspension nor a definition. -/
theorem Compiled.cases_of_tail {t : Tree} (h : Compiled .tail t) :
  t.isDelayed = false ∧ t.isDefinition = false
  := by
  cases h with
  | call _ _ => exact ⟨rfl, rfl⟩
  | branch _ _ _ => exact ⟨rfl, rfl⟩

/-- A node whose children are values is well placed, if it is not a function. -/
theorem wellPlaced_of_values
    {t : Tree} (hkind : t.kind?.any Kind.isCompiled)
    (hfunction : ∀ params body, t ≠ .abstraction params body)
    (h : ∀ c ∈ t.children, Compiled .value c) :
  WellPlaced t
  := by
  refine ⟨hkind, ?_, ?_, ?_, ?_, ?_⟩
  · intro params body heq
    exact absurd heq (hfunction params body)
  · intro body heq
    exact absurd heq (hfunction [] body)
  · intro c hc hdelayed
    rw [(h c hc).cases_of_value.1] at hdelayed
    contradiction
  · intro rator rands hc
    exact absurd rfl ((h _ hc).cases_of_value.2.2 rator rands)
  · intro c hc hdefinition
    rw [(h c hc).cases_of_value.2.1] at hdefinition
    contradiction

/-- Compiled code is well placed. -/
theorem Compiled.wellPlaced {place : Place} {t : Tree} (h : Compiled place t) : WellPlaced t := by
  cases h with
  | literal value => exact wellPlaced_of_values rfl nofun fun c hc => by contradiction
  | var x => exact wellPlaced_of_values rfl nofun fun c hc => by contradiction
  | operation _ hoperands => exact wellPlaced_of_values rfl nofun hoperands
  | choice htest hconseq halt =>
    refine wellPlaced_of_values rfl nofun ?_
    simp only [Tree.children, List.forall_mem_cons]
    exact ⟨htest, hconseq, halt, List.forall_mem_nil _⟩
  | call hrator hrands =>
    exact wellPlaced_of_values rfl nofun (List.forall_mem_cons.mpr ⟨hrator, hrands⟩)
  | @function params body hparams hbody =>
    refine ⟨rfl, ?_, ?_, ?_, ?_, ?_⟩
    · intro params' body' heq _
      cases heq
      rfl
    · intro body' heq
      cases heq
      contradiction
    · intro c hc _
      cases List.mem_singleton.mp hc
      exact .inl ⟨params, hparams, rfl⟩
    · intro rator rands hc
      cases List.mem_singleton.mp hc
    · intro c hc hdefinition
      cases List.mem_singleton.mp hc
      contradiction
  | @branch test conseq alt htest hconseq halt =>
    have hchildren : ∀ c ∈ [test, conseq, alt], c.isDelayed = false ∧ c.isDefinition = false := by
      simp only [List.forall_mem_cons]
      exact ⟨⟨htest.cases_of_value.1, htest.cases_of_value.2.1⟩, hconseq.cases_of_tail,
        halt.cases_of_tail, List.forall_mem_nil _⟩
    refine ⟨rfl, nofun, nofun, ?_, ?_, ?_⟩
    · intro c hc hdelayed
      rw [(hchildren c hc).1] at hdelayed
      contradiction
    · intro rator rands hc
      right
      refine ⟨test, conseq, alt, rfl, htest, ?_⟩
      simp only [Tree.children, List.mem_cons, List.not_mem_nil, or_false] at hc
      obtain heq | hbranch := hc
      · exact absurd heq.symm (htest.cases_of_value.2.2 rator rands)
      · exact hbranch
    · intro c hc hdefinition
      rw [(hchildren c hc).2] at hdefinition
      contradiction

namespace Component

/-- The nodes that programs consist of are well placed. -/
theorem wellPlaced {t : Tree} (h : Component t) : WellPlaced t := by
  cases h with
  | code h => exact h.wellPlaced
  | @suspension body h =>
    refine ⟨rfl, ?_, ?_, ?_, ?_, ?_⟩
    · intro params body' heq hparams
      cases heq
      contradiction
    · intro body' heq
      cases heq
      exact h
    · intro c hc hdelayed
      cases List.mem_singleton.mp hc
      rw [h.cases_of_tail.1] at hdelayed
      contradiction
    · intro rator rands hc
      cases List.mem_singleton.mp hc
      exact .inl rfl
    · intro c hc hdefinition
      cases List.mem_singleton.mp hc
      rw [h.cases_of_tail.2] at hdefinition
      contradiction
  | @inner own params body h =>
    refine ⟨rfl, nofun, nofun, ?_, ?_, ?_⟩
    · intro c hc _
      cases List.mem_singleton.mp hc
      exact .inr ⟨own, params, rfl⟩
    · intro rator rands hc
      cases List.mem_singleton.mp hc
    · intro c hc hdefinition
      cases List.mem_singleton.mp hc
      contradiction
  | @entry d t h =>
    obtain ⟨k, flag, own, body, _, rfl⟩ := h
    refine ⟨rfl, nofun, nofun, ?_, ?_, ?_⟩
    · intro c hc hdelayed
      cases List.mem_singleton.mp hc
      contradiction
    · intro rator rands hc
      cases List.mem_singleton.mp hc
    · intro c hc _
      cases List.mem_singleton.mp hc
      exact ⟨_, _, _, _, rfl⟩
  | @program es helpers h =>
    refine ⟨rfl, nofun, nofun, ?_, ?_, ?_⟩
    · intro c hc hdelayed
      obtain ⟨d, k, flag, own, body, -, rfl⟩ := h c hc
      contradiction
    · intro rator rands hc
      obtain ⟨d, k, flag, own, body, -, heq⟩ := h _ hc
      contradiction
    · intro c hc hdefinition
      obtain ⟨d, k, flag, own, body, -, rfl⟩ := h c hc
      contradiction

/-- The children of such nodes are such nodes. -/
theorem child {t c : Tree} (h : Component t) (hc : c ∈ t.children) : Component c := by
  cases h with
  | code h =>
    cases h with
    | literal value => contradiction
    | var x => contradiction
    | operation _ hoperands => exact .code (hoperands c hc)
    | choice htest hconseq halt =>
      simp only [Tree.children, List.mem_cons, List.not_mem_nil, or_false] at hc
      obtain rfl | rfl | rfl := hc
      · exact .code htest
      · exact .code hconseq
      · exact .code halt
    | function _ hbody =>
      cases List.mem_singleton.mp hc
      exact .suspension hbody
    | call hrator hrands =>
      obtain rfl | hc := List.mem_cons.mp hc
      · exact .code hrator
      · exact .code (hrands c hc)
    | branch htest hconseq halt =>
      simp only [Tree.children, List.mem_cons, List.not_mem_nil, or_false] at hc
      obtain rfl | rfl | rfl := hc
      · exact .code htest
      · exact .code hconseq
      · exact .code halt
  | suspension h =>
    cases List.mem_singleton.mp hc
    exact .code h
  | inner own params h =>
    cases List.mem_singleton.mp hc
    exact .suspension h
  | entry h =>
    obtain ⟨k, flag, own, body, hbody, rfl⟩ := h
    cases List.mem_singleton.mp hc
    exact .inner own _ hbody
  | program helpers h =>
    obtain ⟨d, hd⟩ := h c hc
    exact .entry hd

/-- All that stands in such a node is such a node. -/
theorem of_contains {t u : Tree} (h : Component t) (hu : t.Contains u) : Component u := by
  induction hu with
  | refl => exact h
  | tail _ hc ih => exact ih.child hc

end Component

/-! ### Whole programs -/

/-- What stands in the second of two related lists is related to something in the first. -/
theorem exists_of_mem_right
    {α β : Type} {R : α → β → Prop} {xs : List α} {ys : List β} (h : List.Forall₂ R xs ys) {y : β}
    (hy : y ∈ ys) :
  ∃ x ∈ xs, R x y
  := by
  induction h with
  | nil => contradiction
  | cons hfirst _ ih =>
    obtain rfl | hy := List.mem_cons.mp hy
    · exact ⟨_, List.mem_cons_self, hfirst⟩
    · obtain ⟨x, hx, hrelated⟩ := ih hy
      exact ⟨x, List.mem_cons_of_mem _ hx, hrelated⟩

/-- Definitions that were converted and suspended become a program, which consists of their
entries. -/
theorem exists_toProgram
    {Ds : List Definition} (hDs : ∀ d ∈ Ds, Surface false d.body) {n : Int} {ts : List Tree}
    (hts : Tree.suspendAll ((Definition.placed Ds n).map fun p => p.1.threaded (applyKName n) p.2)
      = .ok ts)
    (names : NameSource) :
  ∃ es names', Tree.toProgram (helpersAt n) ts names
      = .ok (Tree.programOf es (helpersAt n), names') ∧ List.Forall₂ IsEntryOf Ds es
  := by
  have hplaced : ∀ p ∈ Definition.placed Ds n, Surface false p.1.body := fun p hp =>
    hDs p.1 (Definition.number_of_mem_numbered hp).1
  obtain ⟨us, hus, hentries⟩ := exists_entriesOf (applyKName n) hplaced
  rw [hts] at hus
  cases hus
  obtain ⟨es, names', hes, hareEntries⟩ := hentries names.start names.next
  refine ⟨es, names', ?_, ?_⟩
  · rw [Tree.toProgram, Tree.naming_bind hes]
    rfl
  · rw [← Definition.map_fst_numbered (applyKName n) Ds (n + 4), List.forall₂_map_left_iff]
    exact hareEntries

/-- The program of a text that is compiled consists of the entries of its forms. -/
theorem entries_of_compileText
    {entry : String} {runtime : Tree} {text : String} {names : NameSource} {program : Tree}
    (h : (compileText ⟨.text entry, runtime⟩ text).result names = .ok program) :
  ∃ forms es, Tree.readAll text = .ok forms ∧ program = Tree.programOf es (helpersAt names.next)
    ∧ List.Forall₂ (fun form => IsEntryOf (Definition.ofForm entry form)) forms es
  := by
  obtain ⟨start, n⟩ := names
  obtain ⟨forms, hread⟩ := exists_forms_of_compileText h
  obtain ⟨hsurface, -, ts, names', hts, hprogram⟩ := stages_of_compileText rfl hread h
  obtain ⟨es, names'', hes, hentries⟩ := exists_toProgram hsurface hts
    ⟨start, Definition.firstFlag (forms.map (Definition.ofForm entry)) n⟩
  rw [hprogram] at hes
  cases hes
  exact ⟨forms, es, hread, rfl, List.forall₂_map_left_iff.mp hentries⟩

/-- **Every call is a tail call, and every function suspends at once.** The program of a text that
is compiled, with any name for the entry and any source of names, has one entry for each form. An
entry has the parameters of its form; inside it is a function of these and a continuation, whose
body is a suspended tail. Throughout the program all nodes are well placed. -/
theorem compileText_shape
    (entry : String) (runtime : Tree) (text : String) (names : NameSource) (program : Tree)
    (h : (compileText ⟨.text entry, runtime⟩ text).result names = .ok program) :
  ∃ forms es helpers, Tree.readAll text = .ok forms ∧ program = .program es helpers
    ∧ List.Forall₂ (fun form => IsEntryOf (Definition.ofForm entry form)) forms es
    ∧ ∀ t, program.Contains t → WellPlaced t
  := by
  obtain ⟨forms, es, hread, rfl, hforms⟩ := entries_of_compileText h
  refine ⟨forms, es, _, hread, rfl, hforms, ?_⟩
  intro t ht
  have hprogram : Component (Tree.programOf es (helpersAt names.next)) := by
    apply Component.program
    intro e he
    obtain ⟨form, -, hform⟩ := exists_of_mem_right hforms he
    exact ⟨_, hform⟩
  exact (hprogram.of_contains ht).wellPlaced

/-- A text in which functions without parameters are handed on and called in a test, a branch and an
operand. -/
def forcingText : String :=
  "(defn pick (b f) (if (f) b (f))) (pick 1 (fn () (+ 1 (pick 2 (fn () 3)))))"

/-- Compiled with negative numbers, the functions without parameters suspend like the others. -/
theorem compileText_shape_forcingText :
  ∃ program forms es helpers, (compileText {} forcingText).result ⟨-2, -2⟩ = .ok program
    ∧ Tree.readAll forcingText = .ok forms ∧ program = .program es helpers
    ∧ List.Forall₂ (fun form => IsEntryOf (Definition.ofForm "main" form)) forms es
    ∧ ∀ t, program.Contains t → WellPlaced t
  := by
  obtain ⟨program, hprogram⟩ : ∃ program,
      (compileText {} forcingText).result ⟨-2, -2⟩ = .ok program := by
    apply exists_of_isOk
    decide +kernel
  obtain ⟨forms, es, helpers, h⟩ := compileText_shape "main" _ forcingText _ program hprogram
  exact ⟨program, forms, es, helpers, hprogram, h⟩

end Springboard
