import Mathlib.Data.List.Basic
import Springboard.Proofs.Mirroring

/-!
# Definitions at top level

Definitions give values to global names, and of two definitions of one name the later counts.
Converted definitions are bound twice, under their name and under the fresh name by which they
refer to themselves. Where all definitions of a program have been bound on both sides, the global
names of the program and of its converted counterpart have mirrored values.
-/

namespace Springboard

open NameSource Tree

/-- Where a key has got a value in the place of any that it had, it has that value, and the others
have the values they had. -/
theorem lookup_cons_filter {κ α : Type} [BEq κ] [LawfulBEq κ] [DecidableEq κ] (bs : List (κ × α))
    (x : κ) (v : α) (y : κ) :
  ((x, v) :: bs.filter fun b => b.1 != x).lookup y = if y = x then some v else bs.lookup y
  := by
  rw [List.lookup_cons]
  by_cases hxy : y = x
  · rw [if_pos hxy, hxy, beq_self_eq_true]
  · rw [if_neg hxy, beq_false_of_ne hxy]
    dsimp only
    induction bs with
    | nil => rfl
    | cons b bs ih =>
      rw [List.lookup_cons, List.filter_cons]
      by_cases hb : b.1 = x
      · have hyb : (y == b.1) = false := beq_false_of_ne fun h => hxy (h.trans hb)
        rw [hb, bne_self_eq_false, if_neg Bool.false_ne_true, ih, ← hb, hyb]
      · rw [bne_iff_ne.mpr hb, if_pos rfl, List.lookup_cons, ih]

/-- A definition at top level, as it is read. -/
structure Definition where
  name : String
  params : List String
  body : Tree

namespace Definition

/-- The tree of a definition. -/
def toTree (d : Definition) : Tree :=
  .definition d.name d.params d.body none

/-- The fresh name by which a definition that was converted at the number `n` refers to
itself. -/
def own (d : Definition) (n : Int) : String :=
  nameOf d.name n

/-- The parameters of a definition that was converted at the number `n`. -/
def threadedParams (d : Definition) (n : Int) : List String :=
  d.params ++ [nameOf "k" (n + 1)]

/-- A definition converted at the number `n`, with its continuations made functions. -/
def threaded (ak : String) (d : Definition) (n : Int) : Tree :=
  .definition d.name (d.threadedParams n) (threadedBody ak d.name d.params d.body n).1
    (some (d.own n))

/-- Definitions with the numbers at which they are converted, one after the other. -/
def numbered (ak : String) : List Definition → Int → List (Definition × Int)
  | [], _ => []
  | d :: ds, n => (d, n) :: numbered ak ds (threadedBody ak d.name d.params d.body n).2

/-- The number after those that the conversion of some definitions uses. -/
def numberAfter (ak : String) : List Definition → Int → Int
  | [], n => n
  | d :: ds, n => numberAfter ak ds (threadedBody ak d.name d.params d.body n).2

/-- The last of some numbered definitions that has the given name. -/
def latest (x : String) (ps : List (Definition × Int)) : Option (Definition × Int) :=
  ps.reverse.find? fun p => p.1.name == x

/-- A definition uses up the numbers of its own name and of its continuation. -/
theorem lt_threadedBody (ak : String) (d : Definition) (n : Int) :
  n + 1 < (threadedBody ak d.name d.params d.body n).2
  := by
  have h := le_threaded ak (some (var (nameOf "k" (n + 1))))
    ((Renaming.under (some (d.name, nameOf d.name n)) d.params).tree d.body) (n + 2)
  unfold threadedBody
  omega

/-- Conversion of definitions uses up numbers. -/
theorem le_numberAfter (ak : String) (ds : List Definition) (n : Int) :
  n ≤ numberAfter ak ds n
  := by
  induction ds generalizing n with
  | nil => exact le_refl n
  | cons d ds ih =>
    have h := lt_threadedBody ak d n
    exact (by omega : n ≤ _).trans (ih _)

/-- The numbers of definitions are among those that their conversion uses. -/
theorem number_of_mem_numbered {ak : String} {ds : List Definition} {n : Int}
    {p : Definition × Int} (hp : p ∈ numbered ak ds n) :
  p.1 ∈ ds ∧ n ≤ p.2 ∧ p.2 + 1 < numberAfter ak ds n
  := by
  induction ds generalizing n with
  | nil => contradiction
  | cons d ds ih =>
    have hlt := lt_threadedBody ak d n
    rcases List.mem_cons.mp hp with rfl | hp
    · have hle := le_numberAfter ak ds (threadedBody ak d.name d.params d.body n).2
      exact ⟨List.mem_cons_self, le_refl n, hlt.trans_le hle⟩
    · obtain ⟨hmem, hn, hend⟩ := ih hp
      exact ⟨List.mem_cons_of_mem _ hmem, by omega, hend⟩

/-- Different definitions have different numbers. -/
theorem pairwise_numbered (ak : String) (ds : List Definition) (n : Int) :
  (numbered ak ds n).Pairwise fun p q => p.2 < q.2
  := by
  induction ds generalizing n with
  | nil => exact .nil
  | cons d ds ih =>
    refine .cons ?_ (ih _)
    intro q hq
    have hle := (number_of_mem_numbered hq).2.1
    have hlt := lt_threadedBody ak d n
    dsimp only
    omega

/-- The numbered definitions are the definitions. -/
theorem map_fst_numbered (ak : String) (ds : List Definition) (n : Int) :
  (numbered ak ds n).map Prod.fst = ds
  := by
  induction ds generalizing n with
  | nil => rfl
  | cons d ds ih => rw [numbered, List.map_cons, ih]

/-- The last definition of a name is there and has the name. -/
theorem of_latest {x : String} {ps : List (Definition × Int)} {p : Definition × Int}
    (h : latest x ps = some p) :
  p ∈ ps ∧ p.1.name = x
  := by
  constructor
  · exact List.mem_reverse.mp (List.mem_of_find?_eq_some h)
  · simpa using List.find?_some h

/-- A name has no last definition just when it has none. -/
theorem latest_eq_none {x : String} {ps : List (Definition × Int)} :
  latest x ps = none ↔ ∀ p ∈ ps, p.1.name ≠ x
  := by
  simp only [latest, List.find?_eq_none, List.mem_reverse, beq_iff_eq, ne_eq]

/-- The last definition of a name, of a first definition and others. -/
theorem latest_cons (x : String) (p : Definition × Int) (ps : List (Definition × Int)) :
  latest x (p :: ps) = (latest x ps).or (if p.1.name = x then some p else none)
  := by
  unfold latest
  rw [List.reverse_cons, List.find?_append, List.find?_singleton]
  simp only [beq_iff_eq]

/-- The last definition of a name, of some definitions and a last one. -/
theorem latest_concat (x : String) (ps : List (Definition × Int)) (p : Definition × Int) :
  latest x (ps ++ [p]) = if p.1.name = x then some p else latest x ps
  := by
  unfold latest
  rw [List.reverse_append, List.reverse_singleton, List.singleton_append, List.find?_cons]
  by_cases h : p.1.name = x
  · rw [if_pos h, beq_iff_eq.mpr h]
  · rw [if_neg h, beq_eq_false_iff_ne.mpr h]

/-- Definitions that come later have later numbers. -/
theorem numbered_append (ak : String) (ds ds' : List Definition) (n : Int) :
  numbered ak (ds ++ ds') n = numbered ak ds n ++ numbered ak ds' (numberAfter ak ds n)
  := by
  induction ds generalizing n with
  | nil => rfl
  | cons d ds ih => rw [List.cons_append, numbered, numbered, numberAfter, ih, List.cons_append]

end Definition

namespace Evaluation

/-! ### Giving global names their values -/

/-- A state in which a global name has got a value. -/
def State.define (s : State) (x : String) (v : Value) : State :=
  { s with globals := (x, v) :: s.globals.filter fun b => b.1 != x }

/-- Giving a global name a value changes nothing else. -/
theorem define_eq (x : String) (v : Value) (s : State) :
  Evaluation.define x v s = .ok () (s.define x v)
  := by
  rfl

/-- A global name has the value that it was given, and the others have the values they had. -/
theorem lookup_define (s : State) (x : String) (v : Value) (y : String) :
  (s.define x v).globals.lookup y = if y = x then some v else s.globals.lookup y
  := by
  apply lookup_cons_filter

/-- The value that a definition has without conversion; `id` is the identity of the closure. -/
def definedValue (p : Definition × Int) (id : Nat) : Value :=
  .closure id p.1.name p.1.params p.1.body []

/-- The value that a converted definition has; `id` is the identity of the closure. -/
def threadedValue (ak : String) (p : Definition × Int) (id : Nat) : Value :=
  .closure id p.1.name (p.1.threadedParams p.2)
    (threadedBody ak p.1.name p.1.params p.1.body p.2).1 []

/-- The name `x` has the value of its last definition, or else the value that it had before. -/
def Bound (value : Definition × Int → Nat → Value) (before after : List (String × Value))
    (ps : List (Definition × Int)) (x : String) : Prop :=
  match Definition.latest x ps with
  | some p => ∃ id, after.lookup x = some (value p id)
  | none => after.lookup x = before.lookup x

/-- A name that has a last definition has its value. -/
theorem Bound.of_latest
    {value : Definition × Int → Nat → Value} {before after : List (String × Value)}
    {p : Definition × Int} {ps : List (Definition × Int)} {x : String}
    (h : Bound value before after ps x) (hp : Definition.latest x ps = some p) :
  ∃ id, after.lookup x = some (value p id)
  := by
  unfold Bound at h
  rw [hp] at h
  exact h

/-- Where nothing was bound before, a name that has a value has a last definition. -/
theorem Bound.exists_of_lookup
    {value : Definition × Int → Nat → Value} {after : List (String × Value)}
    {ps : List (Definition × Int)} {x : String} {v : Value} (h : Bound value [] after ps x)
    (hv : after.lookup x = some v) :
  ∃ p id, Definition.latest x ps = some p ∧ v = value p id
  := by
  unfold Bound at h
  cases hlatest : Definition.latest x ps with
  | none =>
    rw [hlatest] at h
    rw [h] at hv
    contradiction
  | some p =>
    rw [hlatest] at h
    obtain ⟨id, hid⟩ := h
    rw [hid] at hv
    cases hv
    exact ⟨p, id, rfl, rfl⟩

/-- A name is bound by the last definition of it, whatever the first is. -/
theorem Bound.cons
    {value : Definition × Int → Nat → Value} {before between after : List (String × Value)}
    {p : Definition × Int} {ps : List (Definition × Int)} {x : String}
    (h : Bound value between after ps x)
    (hfirst : if p.1.name = x then ∃ id, between.lookup x = some (value p id)
      else between.lookup x = before.lookup x) :
  Bound value before after (p :: ps) x
  := by
  unfold Bound at h ⊢
  rw [Definition.latest_cons]
  cases hlatest : Definition.latest x ps with
  | some q =>
    rw [hlatest] at h
    exact h
  | none =>
    rw [hlatest] at h
    dsimp only at h
    rw [Option.none_or]
    by_cases hname : p.1.name = x
    · rw [if_pos hname] at hfirst ⊢
      obtain ⟨id, hid⟩ := hfirst
      exact ⟨id, h.trans hid⟩
    · rw [if_neg hname] at hfirst ⊢
      exact h.trans hfirst

/-- A definition gives its name the closure of its body. -/
theorem evalBy_definition
    (rule : Rule) (call : Value → List Value → Eval Value) (env : Env) (name : String)
    (params : List String) (body : Tree) (own : Option String) (s : State) :
  evalBy rule call env (.definition name params body own) s
    = .ok (.closure s.made name params body env)
        ({ s with made := s.made + 1 }.define name (.closure s.made name params body env))
  := by
  rw [evalBy, bind_of_ok (makeClosure_eq _ _ _ _ _), bind_of_ok (define_eq _ _ _)]
  rfl

/-- Evaluating definitions binds their names. -/
theorem evalSequenceBy_toTree
    (rule : Rule) (fuel : Nat) (ps : List (Definition × Int)) (s : State) :
  ∃ vs s', evalSequenceBy rule fuel (ps.map fun p => p.1.toTree) s = .ok vs s'
    ∧ ∀ x, Bound definedValue s.globals s'.globals ps x
  := by
  induction ps generalizing s with
  | nil => exact ⟨[], s, rfl, fun x => rfl⟩
  | cons p ps ih =>
    obtain ⟨vs, s', hvs, hbound⟩ := ih
      ({ s with made := s.made + 1 }.define p.1.name (definedValue p s.made))
    refine ⟨definedValue p s.made :: vs, s', ?_, ?_⟩
    · have hfirst := evalBy_definition rule (callBy rule fuel) [] p.1.name p.1.params p.1.body none s
      rw [List.map_cons, evalSequenceBy, Definition.toTree, bind_of_ok hfirst]
      exact bind_of_ok hvs
    · intro x
      apply (hbound x).cons
      rw [lookup_define]
      by_cases hname : p.1.name = x
      · rw [if_pos hname, if_pos hname.symm]
        exact ⟨s.made, rfl⟩
      · rw [if_neg hname, if_neg (Ne.symm hname)]

/-- The values of some trees at top level and of one more behind them. -/
theorem evalSequenceBy_append
    {rule : Rule} {fuel : Nat} {ts : List Tree} {e : Tree} {s s' : State} {ws : List Value} :
  evalSequenceBy rule fuel (ts ++ [e]) s = .ok ws s'
    ↔ ∃ vs s₁ v, ws = vs ++ [v] ∧ evalSequenceBy rule fuel ts s = .ok vs s₁
      ∧ evalBy rule (callBy rule fuel) [] e s₁ = .ok v s'
  := by
  induction ts generalizing s ws with
  | nil =>
    constructor
    · intro h
      rw [List.nil_append, evalSequenceBy, bind_eq_ok] at h
      obtain ⟨v, s₁, hv, h⟩ := h
      obtain ⟨rfl, rfl⟩ := pure_eq_ok.mp h
      exact ⟨[], s, v, rfl, rfl, hv⟩
    · rintro ⟨vs, s₁, v, rfl, hvs, hv⟩
      obtain ⟨rfl, rfl⟩ := pure_eq_ok.mp hvs
      rw [List.nil_append, evalSequenceBy, bind_of_ok hv]
      rfl
  | cons t ts ih =>
    rw [List.cons_append, evalSequenceBy, evalSequenceBy]
    constructor
    · intro h
      obtain ⟨u, s₁, hu, h⟩ := bind_eq_ok.mp h
      obtain ⟨us, s₂, hus, h⟩ := bind_eq_ok.mp h
      obtain ⟨rfl, rfl⟩ := pure_eq_ok.mp h
      obtain ⟨vs, s₃, v, rfl, hvs, hv⟩ := ih.mp hus
      refine ⟨u :: vs, s₃, v, rfl, ?_, hv⟩
      rw [bind_of_ok hu, bind_of_ok hvs]
      rfl
    · rintro ⟨vs, s₁, v, rfl, hvs, hv⟩
      obtain ⟨u, s₂, hu, hvs⟩ := bind_eq_ok.mp hvs
      obtain ⟨us, s₃, hus, h⟩ := bind_eq_ok.mp hvs
      obtain ⟨rfl, rfl⟩ := pure_eq_ok.mp h
      rw [bind_of_ok hu, bind_of_ok (ih.mpr ⟨us, s₃, v, rfl, hus, hv⟩)]
      rfl

/-- The value of some trees at top level is that of the last, behind the others. -/
theorem evaluateBy_append
    {rule : Rule} {fuel : Nat} {ts : List Tree} {e : Tree} {s s' : State} {v : Value} :
  evaluateBy rule fuel (ts ++ [e]) s = .ok v s'
    ↔ ∃ vs s₁, evalSequenceBy rule fuel ts s = .ok vs s₁
      ∧ evalBy rule (callBy rule fuel) [] e s₁ = .ok v s'
  := by
  rw [evaluateBy, bind_eq_ok]
  constructor
  · rintro ⟨ws, s₁, hws, h⟩
    obtain ⟨vs, s₂, w, rfl, hvs, hw⟩ := evalSequenceBy_append.mp hws
    rw [List.getLast?_append, List.getLast?_singleton, Option.some_or, Option.getD_some] at h
    obtain ⟨rfl, rfl⟩ := pure_eq_ok.mp h
    exact ⟨vs, s₂, hvs, hw⟩
  · rintro ⟨vs, s₁, hvs, hv⟩
    refine ⟨vs ++ [v], s', evalSequenceBy_append.mpr ⟨vs, s₁, v, rfl, hvs, hv⟩, ?_⟩
    rw [List.getLast?_append, List.getLast?_singleton, Option.some_or, Option.getD_some]
    rfl

/-! ### Binding converted definitions -/

/-- Binds a converted definition, under its name and under the name by which it refers to
itself. -/
def install (fuel : Nat) (t : Tree) : Eval Unit := do
  let f ← eval fuel t
  match t with
  | .definition _ _ _ (some own) => define own f
  | _ => pure ()

/-- Binds converted definitions, one after the other. -/
def installAll (fuel : Nat) : List Tree → Eval Unit
  | [] => pure ()
  | t :: ts => do
    install fuel t
    installAll fuel ts

/-- Binding converted definitions gives their names and their own names the same values. -/
theorem installAll_threaded
    (ak : String) (fuel : Nat) {ps : List (Definition × Int)} (hps : ps.Pairwise (·.2 < ·.2))
    (hnames : ∀ p ∈ ps, ∀ q ∈ ps, p.1.name ≠ q.1.own q.2) (s : State) :
  ∃ s', installAll fuel (ps.map fun p => p.1.threaded ak p.2) s = .ok () s'
    ∧ (∀ x, (∀ p ∈ ps, x ≠ p.1.own p.2) → Bound (threadedValue ak) s.globals s'.globals ps x)
    ∧ (∀ p ∈ ps, ∃ id, s'.globals.lookup (p.1.own p.2) = some (threadedValue ak p id))
    ∧ ∀ x, (∀ p ∈ ps, x ≠ p.1.name ∧ x ≠ p.1.own p.2) →
        s'.globals.lookup x = s.globals.lookup x
  := by
  induction ps generalizing s with
  | nil => exact ⟨s, rfl, fun x _ => rfl, fun p hp => by contradiction, fun x _ => rfl⟩
  | cons p ps ih =>
    obtain ⟨hfirst, hrest⟩ := List.pairwise_cons.mp hps
    have hnamesRest : ∀ q ∈ ps, ∀ q' ∈ ps, q.1.name ≠ q'.1.own q'.2 := fun q hq q' hq' =>
      hnames q (List.mem_cons_of_mem _ hq) q' (List.mem_cons_of_mem _ hq')
    have hinstall : install fuel (p.1.threaded ak p.2) s = .ok ()
        (({ s with made := s.made + 1 }.define p.1.name (threadedValue ak p s.made)).define
          (p.1.own p.2) (threadedValue ak p s.made)) := by
      have heval := evalBy_definition BinaryOp.apply (callBy BinaryOp.apply fuel) [] p.1.name
        (p.1.threadedParams p.2) (threadedBody ak p.1.name p.1.params p.1.body p.2).1
        (some (p.1.own p.2)) s
      rw [evalBy_apply, callBy_apply] at heval
      rw [install, Definition.threaded, eval, bind_of_ok heval]
      rfl
    obtain ⟨s', hs', hbound, hown, hother⟩ := ih hrest hnamesRest
      (({ s with made := s.made + 1 }.define p.1.name (threadedValue ak p s.made)).define
        (p.1.own p.2) (threadedValue ak p s.made))
    have hself : p.1.name ≠ p.1.own p.2 := hnames p List.mem_cons_self p List.mem_cons_self
    refine ⟨s', ?_, ?_, ?_, ?_⟩
    · rw [List.map_cons, installAll, bind_of_ok hinstall, hs']
    · intro x hx
      apply (hbound x fun q hq => hx q (List.mem_cons_of_mem _ hq)).cons
      rw [lookup_define, lookup_define, if_neg (hx p List.mem_cons_self)]
      by_cases hname : p.1.name = x
      · rw [if_pos hname, if_pos hname.symm]
        exact ⟨s.made, rfl⟩
      · rw [if_neg hname, if_neg (Ne.symm hname)]
    · intro q hq
      rcases List.mem_cons.mp hq with rfl | hq
      · -- later definitions have other names and other numbers
        refine ⟨s.made, ?_⟩
        rw [hother, lookup_define, if_pos rfl]
        intro q' hq'
        constructor
        · exact (hnames q' (List.mem_cons_of_mem _ hq') q List.mem_cons_self).symm
        · intro heq
          have hnumber := (nameOf_injective heq).2
          have hlt := hfirst q' hq'
          omega
      · exact hown q hq
    · intro x hx
      obtain ⟨hname, hpown⟩ := hx p List.mem_cons_self
      rw [hother x fun q hq => hx q (List.mem_cons_of_mem _ hq), lookup_define, if_neg hpown,
        lookup_define, if_neg hname]

/-- Binds converted definitions and the helper that hands on values. -/
def installProgram (fuel : Nat) (ak : String) (definitions : List Tree) : Eval Unit := do
  installAll fuel definitions
  let _ ← eval fuel (.definition ak ["f", "v"] handing none)
  pure ()

/-- Where a converted program has been bound, its helper hands on values, and its definitions have
their values under both of their names. -/
theorem installProgram_threaded
    {ak : String} (fuel : Nat) {ps : List (Definition × Int)} (hps : ps.Pairwise (·.2 < ·.2))
    (hnames : ∀ p ∈ ps, ∀ q ∈ ps, p.1.name ≠ q.1.own q.2) (hak : ∀ p ∈ ps, ak ≠ p.1.own p.2)
    (s : State) :
  ∃ s', installProgram fuel ak (ps.map fun p => p.1.threaded ak p.2) s = .ok () s'
    ∧ (∃ id, s'.globals.lookup ak = some (.closure id ak ["f", "v"] handing []))
    ∧ (∀ p ∈ ps, ∃ id, s'.globals.lookup (p.1.own p.2) = some (threadedValue ak p id))
    ∧ ∀ x, x ≠ ak → (∀ p ∈ ps, x ≠ p.1.own p.2) →
        Bound (threadedValue ak) s.globals s'.globals ps x
  := by
  obtain ⟨s₁, hs₁, hbound, hown, -⟩ := installAll_threaded ak fuel hps hnames s
  have heval := evalBy_definition BinaryOp.apply (callBy BinaryOp.apply fuel) [] ak ["f", "v"]
    handing none s₁
  rw [evalBy_apply, callBy_apply] at heval
  refine ⟨{ s₁ with made := s₁.made + 1 }.define ak (.closure s₁.made ak ["f", "v"] handing []),
    ?_, ?_, ?_, ?_⟩
  · rw [installProgram, bind_of_ok hs₁, eval, bind_of_ok heval]
    rfl
  · rw [lookup_define, if_pos rfl]
    exact ⟨s₁.made, rfl⟩
  · intro p hp
    rw [lookup_define, if_neg (hak p hp).symm]
    exact hown p hp
  · intro x hx hother
    unfold Bound
    rw [lookup_define, if_neg hx]
    exact hbound x hother

/-! ### The names of a program -/

/-- What has to be known of the names of a program: `ps` are its definitions, converted from the
number `start` on, and `source` are its names. None of these can be a fresh name. -/
structure Nomenclature (ak : String) (source : String → Prop) (ps : List (Definition × Int))
    (start : Int) : Prop where
  start_nonneg : 0 ≤ start
  helper : ∃ base i, ak = nameOf base i ∧ 0 ≤ i ∧ i < start
  unnumbered {x : String} : source x → ∀ base i, 0 ≤ i → x ≠ nameOf base i
  number {p : Definition × Int} : p ∈ ps → start ≤ p.2
  surface {p : Definition × Int} : p ∈ ps → Surface false p.1.body
  names {p : Definition × Int} : p ∈ ps → ∀ x ∈ p.1.params ++ p.1.body.names, source x

namespace Nomenclature

variable {ak : String} {source : String → Prop} {ps : List (Definition × Int)} {start : Int}

/-- The names of definitions that are converted one after the other. -/
theorem of_numbered
    {Ds : List Definition} (hstart : 0 ≤ start)
    (hak : ∃ base i, ak = nameOf base i ∧ 0 ≤ i ∧ i < start)
    (hunnumbered : ∀ {x}, source x → ∀ base i, 0 ≤ i → x ≠ nameOf base i)
    (hDs : ∀ d ∈ Ds, Surface false d.body)
    (hnames : ∀ d ∈ Ds, ∀ x ∈ d.params ++ d.body.names, source x) :
  Nomenclature ak source (Definition.numbered ak Ds start) start
  := by
  refine ⟨hstart, hak, hunnumbered, ?_, ?_, ?_⟩
  · intro p hp
    exact (Definition.number_of_mem_numbered hp).2.1
  · intro p hp
    exact hDs p.1 (Definition.number_of_mem_numbered hp).1
  · intro p hp
    exact hnames p.1 (Definition.number_of_mem_numbered hp).1

/-- The names that the converted program is made of. -/
def vocabulary (h : Nomenclature ak source ps start) : Vocabulary where
  ak := ak
  source := source
  selves f own := ∃ p, Definition.latest f ps = some p ∧ own = p.1.own p.2
  start := start
  source_spared hx m := fun base i hi _ => h.unnumbered hx base i (h.start_nonneg.trans hi)
  ak_spared m := by
    obtain ⟨base, i, rfl, -, hi⟩ := h.helper
    exact spares_nameOf base (.inl hi)
  ak_notSource hsource := by
    obtain ⟨base, i, hak, hi, -⟩ := h.helper
    exact h.unnumbered hsource base i hi hak
  self_notSource := by
    rintro f own ⟨p, hp, rfl⟩ hsource
    have hnumber := h.number (Definition.of_latest hp).1
    exact h.unnumbered hsource p.1.name p.2 (h.start_nonneg.trans hnumber) rfl

/-- The body of the last definition of a name is evaluated in a scope in which the name has
become the definition's own. -/
theorem scope_of_latest
    (h : Nomenclature ak source ps start) {f : String} {p : Definition × Int}
    (hp : Definition.latest f ps = some p) {P : Placing} :
  ScopeAt P h.vocabulary (some (p.1.name, p.1.own p.2)) (p.2 + 1) [] []
  := by
  obtain ⟨hmem, rfl⟩ := Definition.of_latest hp
  have hnumber := h.number hmem
  refine ⟨⟨?_, rfl, ?_⟩, fun x _ => .rfl, fun x v v' _ hv => by contradiction⟩
  · exact hnumber.trans (Int.le_add_one (le_refl _))
  · intro f own hr
    cases hr
    exact ⟨⟨p, hp, rfl⟩, rfl, rfl, fun m => spares_nameOf _ (.inl (by omega))⟩

/-- The last definition of a name is mirrored by its converted counterpart. -/
theorem mirrors_of_latest
    (h : Nomenclature ak source ps start) {f : String} {p : Definition × Int}
    (hp : Definition.latest f ps = some p) {P : Placing} (id id' : Nat)
    (hplace : P id p.1.body (p.2 + 1)) :
  MirrorsAt P h.vocabulary (definedValue p id) (threadedValue ak p id')
  := by
  have hmem := (Definition.of_latest hp).1
  have hmirrors := (h.scope_of_latest hp).mirrors_closure (h.surface hmem) (h.names hmem) id id'
    p.1.name p.1.name hplace
  rw [show p.2 + 1 + 1 = p.2 + 2 by omega] at hmirrors
  exact hmirrors

/-- Where the definitions of a program have been bound on both sides, the global names have
mirrored values. All other names of the source stand for numbers. -/
theorem globals
    (h : Nomenclature ak source ps start) {P : Placing} {strict : Prop}
    {G G' : List (String × Value)}
    (hplace : ∀ {x p id}, Definition.latest x ps = some p → G.lookup x = some (definedValue p id) →
      P id p.1.body (p.2 + 1))
    (hhelper : ∃ id name, G'.lookup ak = some (.closure id name ["f", "v"] handing []))
    (hsource : ∀ {x v}, G.lookup x = some v →
      (∃ p id, Definition.latest x ps = some p ∧ v = definedValue p id)
        ∨ (Definition.latest x ps = none
          ∧ (source x → ∃ n, v = .number n ∧ G'.lookup x = some (.number n))))
    (htarget : ∀ {x p}, Definition.latest x ps = some p →
      (∃ id, G'.lookup (p.1.own p.2) = some (threadedValue ak p id))
        ∧ (source x → ∃ id, G'.lookup x = some (threadedValue ak p id)))
    (hback : strict → ∀ {x},
      (∀ {p}, Definition.latest x ps = some p → ∃ id, G.lookup x = some (definedValue p id))
        ∧ (Definition.latest x ps = none → source x → ∀ {v'}, G'.lookup x = some v' →
          ∃ n, v' = .number n ∧ G.lookup x = some (.number n))) :
  GlobalsAt P h.vocabulary strict G G'
  := by
  refine ⟨hhelper, ?_, ?_, ?_, ?_⟩
  · intro x v hx hv
    obtain ⟨p, id, hp, rfl⟩ | ⟨-, hnumber⟩ := hsource hv
    · obtain ⟨id', hid'⟩ := (htarget hp).2 hx
      exact ⟨_, hid', h.mirrors_of_latest hp id id' (hplace hp hv)⟩
    · obtain ⟨n, rfl, hn⟩ := hnumber hx
      exact ⟨_, hn, .number n⟩
  · intro x v' hstrict hx hv'
    cases hlatest : Definition.latest x ps with
    | some p =>
      obtain ⟨id, hid⟩ := (hback hstrict).1 hlatest
      obtain ⟨id', hid'⟩ := (htarget hlatest).2 hx
      rw [hid'] at hv'
      cases hv'
      exact ⟨_, hid, h.mirrors_of_latest hlatest id id' (hplace hlatest hid)⟩
    | none =>
      obtain ⟨n, rfl, hn⟩ := (hback hstrict).2 hlatest hx hv'
      exact ⟨_, hn, .number n⟩
  · rintro f own v ⟨p, hp, rfl⟩ hv
    obtain ⟨id', hid'⟩ := (htarget hp).1
    obtain ⟨q, id, hq, rfl⟩ | ⟨hnone, -⟩ := hsource hv
    · rw [hp] at hq
      cases hq
      exact ⟨_, hid', h.mirrors_of_latest hp id id' (hplace hp hv)⟩
    · rw [hp] at hnone
      contradiction
  · rintro f own v' hstrict ⟨p, hp, rfl⟩ hv'
    obtain ⟨id', hid'⟩ := (htarget hp).1
    obtain ⟨id, hid⟩ := (hback hstrict).1 hp
    rw [hid'] at hv'
    cases hv'
    exact ⟨_, hid, h.mirrors_of_latest hp id id' (hplace hp hid)⟩

end Nomenclature

end Evaluation

end Springboard
