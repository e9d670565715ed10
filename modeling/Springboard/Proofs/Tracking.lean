import Mathlib.Data.List.Induction
import Springboard.Proofs.Continuations
import Springboard.Proofs.Forms
import Springboard.Proofs.Running

/-!
# Functions of the machine and what they stand for

A converted function, as evaluation knows it, is compared with the function that the machine runs
for it. Values are related as data: numbers to themselves, definitions to entries of the module or
to the inner functions of those, and other functions to functions with suspended bodies. A
continuation of the machine is related together with the trampolines that will end when it is
called: these are the flags that it wraps.
-/

namespace Springboard.Machine

/-! ### Names and operators -/

/-- The value of a name: its local one, or else its global one. -/
def find (env : Env) (globals : Namespace) (x : String) : Option Value :=
  (env.lookup x).or (globals.lookup x)

/-- Looking up a name finds its value and changes nothing. -/
theorem lookup_eq_ok {globals : Namespace} {env : Env} {x : String} {st st' : State} {v : Value} :
  lookup globals env x st = .ok v st' ↔ find env globals x = some v ∧ st = st'
  := by
  unfold lookup find
  cases env.lookup x with
  | some w =>
    rw [Option.some_or, Option.some_inj]
    exact pure_eq_ok
  | none =>
    rw [Option.none_or]
    cases globals.lookup x with
    | some w =>
      rw [Option.some_inj]
      exact pure_eq_ok
    | none =>
      constructor
      · intro h
        contradiction
      · rintro ⟨h, -⟩
        contradiction

/-- A step that may fault has the value that it was given. -/
theorem attempt_eq_ok {α : Type} {x : Except Fault α} {a : α} {st st' : State} :
  attempt x st = .ok a st' ↔ x = .ok a ∧ st = st'
  := by
  cases x with
  | ok b =>
    rw [Except.ok.injEq]
    exact pure_eq_ok
  | error e =>
    constructor
    · intro h
      contradiction
    · rintro ⟨h, -⟩
      contradiction

/-- Binary operators compute numbers. -/
theorem exists_number_of_apply {op : BinaryOp} {v w u : Value} (h : op.apply v w = .ok u) :
  ∃ n, u = .number n
  := by
  exact BinaryOp.exists_ofNumber h

/-- The negative of a value is a number. -/
theorem exists_number_of_negate {v w : Value} (h : Operand.negate v = .ok w) :
  ∃ n, w = .number n
  := by
  exact Operand.exists_ofNumber h

/-- A step followed by one that may fault. -/
theorem bind_attempt_eq_ok
    {α β : Type} {x : Run α} {f : α → Except Fault β} {st st' : State} {b : β} :
  (x >>= fun a => attempt (f a)) st = .ok b st' ↔ ∃ a, x st = .ok a st' ∧ f a = .ok b
  := by
  rw [bind_eq_ok]
  constructor
  · rintro ⟨a, st₁, ha, h⟩
    obtain ⟨hb, rfl⟩ := attempt_eq_ok.mp h
    exact ⟨a, ha, hb⟩
  · rintro ⟨a, ha, hb⟩
    exact ⟨a, st', ha, attempt_eq_ok.mpr ⟨hb, rfl⟩⟩

section Expressions

variable {rule : Rule} {call : Value → List Value → Run Value} {home : Nat} {globals : Namespace}
variable {env : Env}

/-- The values of two lists of expressions, one after the other. -/
theorem execAllBy_append {codes codes' : List Code} {st st' : State} {ws : List Value} :
  execAllBy rule call home globals env (codes ++ codes') st = .ok ws st'
    ↔ ∃ vs vs' st₁, ws = vs ++ vs' ∧ execAllBy rule call home globals env codes st = .ok vs st₁
      ∧ execAllBy rule call home globals env codes' st₁ = .ok vs' st'
  := by
  induction codes generalizing st ws with
  | nil =>
    rw [List.nil_append, execAllBy]
    constructor
    · intro h
      exact ⟨[], ws, st, rfl, rfl, h⟩
    · rintro ⟨vs, vs', st₁, rfl, hvs, hvs'⟩
      obtain ⟨rfl, rfl⟩ := pure_eq_ok.mp hvs
      exact hvs'
  | cons code codes ih =>
    rw [List.cons_append, execAllBy, execAllBy]
    constructor
    · intro h
      obtain ⟨v, st₁, hv, h⟩ := bind_eq_ok.mp h
      obtain ⟨ws', st₂, hws', h⟩ := bind_eq_ok.mp h
      obtain ⟨rfl, rfl⟩ := pure_eq_ok.mp h
      obtain ⟨vs, vs', st₃, rfl, hvs, hvs'⟩ := ih.mp hws'
      refine ⟨v :: vs, vs', st₃, rfl, ?_, hvs'⟩
      rw [bind_of_ok hv, bind_of_ok hvs]
      rfl
    · rintro ⟨vs, vs', st₁, rfl, hvs, hvs'⟩
      obtain ⟨v, st₂, hv, hvs⟩ := bind_eq_ok.mp hvs
      obtain ⟨rest, st₃, hrest, h⟩ := bind_eq_ok.mp hvs
      obtain ⟨rfl, rfl⟩ := pure_eq_ok.mp h
      rw [bind_of_ok hv, bind_of_ok (ih.mpr ⟨rest, vs', st₃, rfl, hrest, hvs'⟩)]
      rfl

/-- The value of a single expression, as the only one of a list. -/
theorem execAllBy_singleton {code : Code} {st st' : State} {vs : List Value} :
  execAllBy rule call home globals env [code] st = .ok vs st'
    ↔ ∃ v, vs = [v] ∧ execBy rule call home globals env code st = .ok v st'
  := by
  rw [execAllBy, bind_eq_ok]
  constructor
  · rintro ⟨v, st₁, hv, h⟩
    rw [execAllBy, bind_of_ok (pure_eq _ _)] at h
    obtain ⟨rfl, rfl⟩ := pure_eq_ok.mp h
    exact ⟨v, rfl, hv⟩
  · rintro ⟨v, rfl, hv⟩
    refine ⟨v, st', hv, ?_⟩
    rw [execAllBy, bind_of_ok (pure_eq _ _)]
    rfl

/-- A binary operator associated to the left computes its fold. -/
theorem execBy_foldl {op : BinaryOp} {first : Code} {rest : List Code} {st st' : State} {v : Value} :
  execBy rule call home globals env (rest.foldl (Code.binary op) first) st = .ok v st'
    ↔ ∃ vs, execAllBy rule call home globals env (first :: rest) st = .ok vs st'
      ∧ Operator.foldBy (rule op) vs = .ok v
  := by
  induction rest using List.reverseRecOn generalizing v st' with
  | nil =>
    rw [List.foldl_nil]
    constructor
    · intro h
      exact ⟨[v], execAllBy_singleton.mpr ⟨v, rfl, h⟩, rfl⟩
    · rintro ⟨vs, hvs, hfold⟩
      obtain ⟨w, rfl, hw⟩ := execAllBy_singleton.mp hvs
      cases hfold
      exact hw
  | append_singleton rest last ih =>
    rw [List.foldl_append, List.foldl_cons, List.foldl_nil, execBy, ← List.cons_append]
    constructor
    · intro h
      obtain ⟨u, st₁, hu, h⟩ := bind_eq_ok.mp h
      obtain ⟨w, st₂, hw, h⟩ := bind_eq_ok.mp h
      obtain ⟨hv, rfl⟩ := attempt_eq_ok.mp h
      obtain ⟨vs, hvs, hfold⟩ := ih.mp hu
      refine ⟨vs ++ [w], ?_, ?_⟩
      · exact execAllBy_append.mpr ⟨vs, [w], st₁, rfl, hvs, execAllBy_singleton.mpr ⟨w, rfl, hw⟩⟩
      · have hne : vs ≠ [] := by
          rintro rfl
          contradiction
        rw [Operator.foldBy_append _ hne, hfold]
        exact hv
    · rintro ⟨ws, hws, hfold⟩
      obtain ⟨vs, vs', st₁, rfl, hvs, hvs'⟩ := execAllBy_append.mp hws
      obtain ⟨w, rfl, hw⟩ := execAllBy_singleton.mp hvs'
      have hne : vs ≠ [] := by
        rintro rfl
        rw [execAllBy, bind_eq_ok] at hvs
        obtain ⟨u, st₂, -, hvs⟩ := hvs
        obtain ⟨us, st₃, -, hvs⟩ := bind_eq_ok.mp hvs
        obtain ⟨hnil, -⟩ := pure_eq_ok.mp hvs
        contradiction
      rw [Operator.foldBy_append _ hne] at hfold
      cases hinit : Operator.foldBy (rule op) vs with
      | error e =>
        rw [hinit] at hfold
        contradiction
      | ok u =>
        rw [hinit] at hfold
        have hu := ih.mpr ⟨vs, hvs, hinit⟩
        rw [bind_of_ok hu, bind_of_ok hw]
        exact attempt_eq_ok.mpr ⟨hfold, rfl⟩

/-- The values of an expression and of those behind it. -/
theorem execAllBy_cons {code : Code} {codes : List Code} {st st' : State} {ws : List Value} :
  execAllBy rule call home globals env (code :: codes) st = .ok ws st'
    ↔ ∃ v vs st₁, ws = v :: vs ∧ execBy rule call home globals env code st = .ok v st₁
      ∧ execAllBy rule call home globals env codes st₁ = .ok vs st'
  := by
  rw [execAllBy, bind_eq_ok]
  constructor
  · rintro ⟨v, st₁, hv, h⟩
    obtain ⟨vs, st₂, hvs, h⟩ := bind_eq_ok.mp h
    obtain ⟨rfl, rfl⟩ := pure_eq_ok.mp h
    exact ⟨v, vs, st₁, rfl, hv, hvs⟩
  · rintro ⟨v, vs, st₁, rfl, hv, hvs⟩
    refine ⟨v, st₁, hv, ?_⟩
    rw [bind_of_ok hvs]
    rfl

/-- The expression of an operator computes what the operator does. -/
theorem execBy_ofOperation
    {op : Operator} {codes : List Code} {code : Code} (h : Code.ofOperation op codes = some code)
    {st st' : State} {v : Value} :
  execBy rule call home globals env code st = .ok v st'
    ↔ (execAllBy rule call home globals env codes >>= fun vs => attempt (op.evaluateBy rule vs)) st
      = .ok v st'
  := by
  rw [bind_attempt_eq_ok]
  unfold Operator.evaluateBy
  have hexpressed := expressed_of_ofOperation h
  generalize op.shape = shape at hexpressed
  cases hexpressed with
  | chain b first rest => exact execBy_foldl
  | negative a =>
    rw [execBy, bind_eq_ok]
    constructor
    · rintro ⟨u, st₁, hu, h⟩
      obtain ⟨hv, rfl⟩ := attempt_eq_ok.mp h
      exact ⟨[u], execAllBy_singleton.mpr ⟨u, rfl, hu⟩, hv⟩
    · rintro ⟨vs, hvs, hv⟩
      obtain ⟨u, rfl, hu⟩ := execAllBy_singleton.mp hvs
      exact ⟨u, st', hu, attempt_eq_ok.mpr ⟨hv, rfl⟩⟩
  | difference a b rest =>
    rw [execBy_foldl]
    constructor
    · rintro ⟨vs, hvs, hv⟩
      refine ⟨vs, hvs, ?_⟩
      obtain ⟨u, us, st₁, rfl, hu, hus⟩ := execAllBy_cons.mp hvs
      obtain ⟨w, ws, st₂, rfl, hw, hws⟩ := execAllBy_cons.mp hus
      exact hv
    · rintro ⟨vs, hvs, hv⟩
      refine ⟨vs, hvs, ?_⟩
      obtain ⟨u, us, st₁, rfl, hu, hus⟩ := execAllBy_cons.mp hvs
      obtain ⟨w, ws, st₂, rfl, hw, hws⟩ := execAllBy_cons.mp hus
      exact hv
  | pair b a a' =>
    rw [execBy, bind_eq_ok]
    constructor
    · rintro ⟨u, st₁, hu, h⟩
      obtain ⟨w, st₂, hw, h⟩ := bind_eq_ok.mp h
      obtain ⟨hv, rfl⟩ := attempt_eq_ok.mp h
      refine ⟨[u, w], ?_, hv⟩
      exact execAllBy_cons.mpr ⟨u, [w], st₁, rfl, hu, execAllBy_singleton.mpr ⟨w, rfl, hw⟩⟩
    · rintro ⟨vs, hvs, hv⟩
      obtain ⟨u, us, st₁, rfl, hu, hus⟩ := execAllBy_cons.mp hvs
      obtain ⟨w, rfl, hw⟩ := execAllBy_singleton.mp hus
      refine ⟨u, st₁, hu, ?_⟩
      rw [bind_of_ok hw]
      exact attempt_eq_ok.mpr ⟨hv, rfl⟩
  | denial a =>
    rw [execBy, bind_eq_ok]
    constructor
    · rintro ⟨u, st₁, hu, h⟩
      obtain ⟨rfl, rfl⟩ := pure_eq_ok.mp h
      exact ⟨[u], execAllBy_singleton.mpr ⟨u, rfl, hu⟩, rfl⟩
    · rintro ⟨vs, hvs, hv⟩
      obtain ⟨u, rfl, hu⟩ := execAllBy_singleton.mp hvs
      cases hv
      exact ⟨u, st', hu, rfl⟩
  | against b n a =>
    rw [execBy, bind_eq_ok]
    constructor
    · rintro ⟨u, st₁, hu, h⟩
      rw [execBy, bind_of_ok (pure_eq _ _)] at h
      obtain ⟨hv, rfl⟩ := attempt_eq_ok.mp h
      exact ⟨[u], execAllBy_singleton.mpr ⟨u, rfl, hu⟩, hv⟩
    · rintro ⟨vs, hvs, hv⟩
      obtain ⟨u, rfl, hu⟩ := execAllBy_singleton.mp hvs
      refine ⟨u, st', hu, ?_⟩
      rw [execBy, bind_of_ok (pure_eq _ _)]
      exact attempt_eq_ok.mpr ⟨hv, rfl⟩

end Expressions

/-! ### Programs -/

/-- A function at the top of a program, with the names that it was given: of its continuation, of
itself inside its own body, and of its flag. -/
structure Routine where
  name : String
  params : List String
  k : String
  own : String
  flag : String
  body : Tree

/-- What evaluation takes a routine for; `id` is the identity of the closure. -/
def Routine.value (r : Routine) (id : Nat) : Evaluation.Value :=
  .closure id r.name (r.params ++ [r.k]) r.body []

/-- A program that is evaluated on one side, with the given values of its global names, and run by
the machine on the other, in the namespace `home`. -/
structure Setting where
  ident : String → String
  ak : String
  makeFlag : String
  trampoline : String
  routines : Routine → Prop
  globals : List (String × Evaluation.Value)
  spaces : List Namespace
  home : Nat

namespace Setting

/-- The global names of the machine. -/
def space (S : Setting) : Namespace :=
  S.spaces[S.home]?.getD []

/-- The code of a routine. -/
def entry (S : Setting) (r : Routine) : Entry where
  name := S.ident r.name
  params := r.params.map S.ident
  k := S.ident r.k
  flag := S.ident r.flag
  inner := S.ident r.own
  innerParams := (r.params ++ [r.k]).map S.ident
  innerBody := .lambda [] (codeOf S.ident r.body)
  makeFlag := S.ident S.makeFlag
  trampoline := S.ident S.trampoline

/-- What the machine takes a routine for. -/
def entryValue (S : Setting) (r : Routine) (id : Nat) : Value :=
  .entry id S.home (S.entry r) (.helper .identity)

/-- The inner function of a routine. -/
def innerValue (S : Setting) (r : Routine) (id : Nat) (env : Env) : Value :=
  .closure id S.home (some (S.ident r.own)) ((r.params ++ [r.k]).map S.ident)
    (.lambda [] (codeOf S.ident r.body)) env

end Setting

/-! ### Data -/

/-- A value of evaluation and the value of the machine that stands for it. -/
inductive Tracks (S : Setting) : Evaluation.Value → Value → Prop
  | number (n : Number) : Tracks S (.number n) (.number n)
  | entry {r : Routine} (hr : S.routines r) (id id' : Nat) :
      Tracks S (r.value id) (S.entryValue r id')
  | inner {r : Routine} (hr : S.routines r) (id id' : Nat) {env : Env}
      (henv : ∀ b ∈ env, b.1 = S.ident r.flag ∨ ∃ x ∈ r.params ++ [r.k], b.1 = S.ident x) :
      Tracks S (r.value id) (S.innerValue r id' env)
  | closure {I : Idiom S.ident S.ak} {id id' : Nat} {name : String} {params : List String}
      {k : String} {body : Tree} {env : Evaluation.Env} {env' : Env}
      (hparams : ∀ x ∈ params, I.data x) (hk : I.cont k) (hnodup : params.Nodup)
      (hbody : Fragment I (.tail k) body) (hak : env.lookup S.ak = none)
      (hak' : env'.lookup (S.ident S.ak) = none)
      (hbound : ∀ x, I.data x → ((Evaluation.find env S.globals x).isSome
        ↔ (find env' S.space (S.ident x)).isSome))
      (hvalues : ∀ x v v', I.data x → Evaluation.find env S.globals x = some v →
        find env' S.space (S.ident x) = some v' → Tracks S v v') :
      Tracks S (.closure id name (params ++ [k]) body env)
        (.closure id' S.home none ((params ++ [k]).map S.ident)
          (.lambda [] (codeOf S.ident body)) env')

/-- Environments in which the names for data stand for related values, and the helper that hands on
values is not hidden. -/
structure Matches (S : Setting) (I : Idiom S.ident S.ak) (env : Evaluation.Env) (env' : Env) :
    Prop where
  ak : env.lookup S.ak = none
  ak' : env'.lookup (S.ident S.ak) = none
  bound : ∀ x, I.data x → ((Evaluation.find env S.globals x).isSome
    ↔ (find env' S.space (S.ident x)).isSome)
  values : ∀ x v v', I.data x → Evaluation.find env S.globals x = some v →
    find env' S.space (S.ident x) = some v' → Tracks S v v'

/-- Related values agree on the numbers, and the others are functions. -/
theorem Tracks.correspondence (S : Setting) :
  Correspondence (Tracks S) Evaluation.Value.isFunction Value.isFunction
  := by
  constructor
  · intro a b h
    cases h <;> rfl
  · intro a b h
    cases h <;> exact ⟨rfl, rfl⟩
  · intro a b h
    cases h <;> exact ⟨rfl, rfl⟩
  · intro n
    exact .number n

/-- States of the machine with the given flags. -/
def HasFlags (flags : Array Flag) (st : State) : Prop :=
  st.flags = flags

section Values

variable {S : Setting} {I : Idiom S.ident S.ak} {env : Evaluation.Env} {env' : Env}
variable {flags : Array Flag}

/-- A name for data has related values. -/
theorem carried_lookup (h : Matches S I env env') {x : String} (hx : I.data x) :
  Carried True (Evaluation.Holds S.globals) (HasFlags flags) (Tracks S)
    (Evaluation.lookup env x) (lookup S.space env' (S.ident x))
  := by
  have hbound := h.bound x hx
  constructor
  · intro s st v s' hs hst hv
    obtain ⟨hfound, rfl⟩ := Evaluation.lookup_eq_ok.mp hv
    rw [hs] at hfound
    rw [hfound, Option.isSome_some, eq_self, true_iff, Option.isSome_iff_exists] at hbound
    obtain ⟨v', hv'⟩ := hbound
    exact ⟨hs, v', st, lookup_eq_ok.mpr ⟨hv', rfl⟩, h.values x v v' hx hfound hv', hst⟩
  · intro s st v' st' _ hs hst hv'
    obtain ⟨hfound, rfl⟩ := lookup_eq_ok.mp hv'
    rw [hfound, Option.isSome_some, eq_self, iff_true, Option.isSome_iff_exists] at hbound
    obtain ⟨v, hv⟩ := hbound
    refine ⟨hst, v, s, Evaluation.lookup_eq_ok.mpr ⟨?_, rfl⟩, h.values x v v' hx hv hfound, hs⟩
    rw [hs]
    exact hv

/-- Steps that may fault match when their results do. -/
theorem carried_attempt {R : Evaluation.Value → Value → Prop} {I : Evaluation.State → Prop}
    {J : State → Prop} {x : Except Fault Evaluation.Value} {y : Except Fault Value}
    (h : Matched R x y) :
  Carried True I J R (Evaluation.attempt x) (attempt y)
  := by
  cases h with
  | ok h => exact .pure h
  | error e e' => exact .of_fail (fun _ _ _ => throw_ne_ok) (fun _ _ _ _ => throw_ne_ok)

/-- New functions in matching environments. -/
theorem carried_closure {R : Evaluation.Value → Value → Prop} {name : String}
    {params : List String} {body : Tree} {params' : List String} {code : Code}
    (call : Value → List Value → Run Value)
    (hR : ∀ id id', R (.closure id name params body env)
      (.closure id' S.home none params' code env')) :
  Carried True (Evaluation.Holds S.globals) (HasFlags flags) R
    (Evaluation.makeClosure name params body env)
    (execBy apart call S.home S.space env' (.lambda params' code))
  := by
  have hexec : ∀ st, execBy apart call S.home S.space env' (.lambda params' code) st
      = .ok (.closure st.made S.home none params' code env') ⟨st.flags, st.made + 1⟩ := by
    intro st
    rw [execBy]
    rfl
  constructor
  · intro s st v s' hs hst hv
    rw [Evaluation.makeClosure_eq] at hv
    cases hv
    exact ⟨hs, _, _, hexec st, hR _ _, hst⟩
  · intro s st v' st' _ hs hst hv'
    rw [hexec] at hv'
    cases hv'
    exact ⟨hst, _, _, Evaluation.makeClosure_eq _ _ _ _ s, hR _ _, hs⟩

/-- Operands that have related values have them one by one. -/
theorem carried_all
    {ts : List Tree} {call : Evaluation.Value → List Evaluation.Value → Evaluation.Eval Evaluation.Value}
    {call' : Value → List Value → Run Value}
    (h : ∀ t ∈ ts, Carried True (Evaluation.Holds S.globals) (HasFlags flags) (Tracks S)
      (Evaluation.evalBy Evaluation.apart call env t)
      (execBy apart call' S.home S.space env' (codeOf S.ident t))) :
  Carried True (Evaluation.Holds S.globals) (HasFlags flags) (List.Forall₂ (Tracks S))
    (Evaluation.evalAllBy Evaluation.apart call env ts)
    (execAllBy apart call' S.home S.space env' (codesOf S.ident ts))
  := by
  induction ts with
  | nil =>
    rw [Evaluation.evalAllBy, codesOf, execAllBy]
    exact .pure .nil
  | cons t ts ih =>
    rw [Evaluation.evalAllBy, codesOf, execAllBy]
    apply (h t List.mem_cons_self).bind
    intro v v' hv
    apply (ih fun t ht => h t (List.mem_cons_of_mem _ ht)).bind
    intro vs vs' hvs
    exact .pure (.cons hv hvs)

/-- A value of a threaded tree is computed alike on both sides. -/
theorem carried_value
    {role : Role} (hrole : role = .value) {t : Tree} (ht : Fragment I role t)
    (h : Matches S I env env')
    (call : Evaluation.Value → List Evaluation.Value → Evaluation.Eval Evaluation.Value)
    (call' : Value → List Value → Run Value) :
  Carried True (Evaluation.Holds S.globals) (HasFlags flags) (Tracks S)
    (Evaluation.evalBy Evaluation.apart call env t)
    (execBy apart call' S.home S.space env' (codeOf S.ident t))
  := by
  induction ht with
  | literal n =>
    rw [Evaluation.evalBy, codeOf, execBy]
    exact .pure (.number n)
  | var hx =>
    rw [Evaluation.evalBy, codeOf, execBy]
    exact carried_lookup h hx
  | @operation op ts hcount _ ih =>
    rw [Evaluation.evalBy]
    apply Carried.of_iff fun st v st' => execBy_ofOperation (ofOperation_eq hcount)
    apply (carried_all fun t ht => ih t ht rfl).bind
    intro vs vs' hvs
    exact carried_attempt ((Tracks.correspondence S).evaluateBy op hvs)
  | choice _ _ _ ihtest ihconseq ihalt =>
    rw [Evaluation.evalBy, codeOf, execBy]
    apply (ihtest rfl).bind
    intro v v' hv
    rw [(Tracks.correspondence S).isTrue hv]
    split
    · exact ihconseq rfl
    · exact ihalt rfl
  | function hparams hk hnodup hbody _ =>
    rw [Evaluation.evalBy, codeOf]
    apply carried_closure call'
    intro id id'
    exact .closure hparams hk hnodup hbody h.ak h.ak' h.bound h.values
  | handed _ _ _ _ => contradiction
  | call _ _ _ _ _ _ => contradiction
  | branch _ _ _ _ _ _ => contradiction
  | given k => contradiction
  | waiting _ _ _ => contradiction

end Values

end Springboard.Machine
