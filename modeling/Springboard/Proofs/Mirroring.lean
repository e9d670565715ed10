import Springboard.Proofs.Evaluation
import Springboard.Proofs.Threading

/-!
# Values and their converted counterparts

A function of the source and the converted function that stands for it take different numbers of
arguments and have different bodies, so their values are compared by a relation: numbers are
mirrored by themselves, and a function by one whose body is the threaded body, when the variables
of the source are bound to mirrored values in their environments. Trivial trees, which are values
already, evaluate to mirrored values.
-/

namespace Springboard.Evaluation

open NameSource Tree

/-! ### Names that were drawn -/

/-- No name with a number from `n` on, below `m`, is `x`. -/
def Spares (n m : Int) (x : String) : Prop :=
  ∀ base i, n ≤ i → i < m → x ≠ nameOf base i

/-- A smaller range of numbers spares more names. -/
theorem Spares.mono {n m n' m' : Int} {x : String} (h : Spares n m x) (hn : n ≤ n') (hm : m' ≤ m) :
  Spares n' m' x
  := by
  intro base i hi hi'
  exact h base i (by omega) (by omega)

/-- A fresh name is spared by numbers that do not include its own. -/
theorem spares_nameOf (base : String) {i n m : Int} (h : i < n ∨ m ≤ i) :
  Spares n m (nameOf base i)
  := by
  intro base' j hj hj' heq
  have hij := (nameOf_injective heq).2
  omega

/-- All names of an environment were drawn with numbers from `n` on, below `m`. -/
def Drawn (n m : Int) (env : Env) : Prop :=
  ∀ b ∈ env, ∃ base i, n ≤ i ∧ i < m ∧ b.1 = nameOf base i

namespace Drawn

/-- No names were drawn for the empty environment. -/
theorem nil (n m : Int) : Drawn n m [] := by
  intro b hb
  contradiction

/-- Names that were drawn from a range were drawn from a larger one. -/
theorem mono {n m n' m' : Int} {env : Env} (h : Drawn n m env) (hn : n' ≤ n) (hm : m ≤ m') :
  Drawn n' m' env
  := by
  intro b hb
  obtain ⟨base, i, hi, hi', heq⟩ := h b hb
  exact ⟨base, i, by omega, by omega, heq⟩

/-- Environments of drawn names can be joined. -/
theorem append {n m : Int} {env env' : Env} (h : Drawn n m env) (h' : Drawn n m env') :
  Drawn n m (env ++ env')
  := by
  intro b hb
  rcases List.mem_append.mp hb with hb | hb
  · exact h b hb
  · exact h' b hb

/-- One more drawn name. -/
theorem cons {n m : Int} {env : Env} (h : Drawn n m env) (base : String) {i : Int} (hi : n ≤ i)
    (hi' : i < m) (v : Value) :
  Drawn n m ((nameOf base i, v) :: env)
  := by
  intro b hb
  rcases List.mem_cons.mp hb with rfl | hb
  · exact ⟨base, i, hi, hi', rfl⟩
  · exact h b hb

/-- Drawn names do not hide a name that is spared. -/
theorem lookup {n m : Int} {env : Env} (h : Drawn n m env) {x : String} (hx : Spares n m x)
    (env' : Env) :
  (env ++ env').lookup x = env'.lookup x
  := by
  have hnone : env.lookup x = none := by
    rw [List.lookup_eq_none_iff]
    intro b hb
    obtain ⟨base, i, hi, hi', heq⟩ := h b hb
    rw [heq, bne_iff_ne]
    exact hx base i hi hi'
  rw [List.lookup_append, hnone, Option.none_or]

end Drawn

/-! ### The relation between values -/

/-- The names that a converted program is made of: the helper that hands on values, the names of
the source, and the fresh name that stands for each name of a definition inside its own body. All
other names are drawn from the number `start` on. -/
structure Vocabulary where
  ak : String
  source : String → Prop
  selves : String → String → Prop
  start : Int
  source_spared {x : String} : source x → ∀ m, Spares start m x
  ak_spared : ∀ m, Spares start m ak
  ak_notSource : ¬ source ak
  self_notSource {f own : String} : selves f own → ¬ source own

/-- In the environments of a function and its counterpart, neither the helper nor the names that
are renamed are bound, and none of them will be drawn from the number `n` on. -/
structure Vocabulary.Clear (V : Vocabulary) (r : Renaming) (n : Int) (env env' : Env) : Prop where
  start_le : V.start ≤ n
  ak : env'.lookup V.ak = none
  self {f own : String} : r = some (f, own) →
    V.selves f own ∧ env.lookup f = none ∧ env'.lookup own = none ∧ ∀ m, Spares n m own

/-- Which functions of the source may be converted at which numbers: a function is told by its
identity and its body, and the number is that of its continuation. -/
abbrev Placing := Nat → Tree → Int → Prop

/-- The placing that allows everything. -/
def Placing.free : Placing :=
  fun _ _ _ => True

/-- A value and its converted counterpart, where functions were converted as the placing allows. -/
inductive MirrorsAt (P : Placing) (V : Vocabulary) : Value → Value → Prop
  | number (n : Number) : MirrorsAt P V (.number n) (.number n)
  | closure {id id' : Nat} {name name' : String} {params : List String} {body : Tree}
      {env env' : Env} {r : Renaming} {n : Int}
      (hbody : Surface false body) (hnames : ∀ x ∈ params ++ body.names, V.source x)
      (hclear : V.Clear r n env env')
      (hbound : ∀ x, V.source x → ((env.lookup x).isSome ↔ (env'.lookup x).isSome))
      (hvalues : ∀ x v v', V.source x → env.lookup x = some v → env'.lookup x = some v' →
        MirrorsAt P V v v') (hplace : P id body n) :
      MirrorsAt P V (.closure id name params body env)
        (.closure id' name' (params ++ [nameOf "k" n])
          (threaded V.ak (some (.var (nameOf "k" n))) ((r.under params).tree body) (n + 1)).1 env')

/-- A value and its converted counterpart. -/
abbrev Mirrors := MirrorsAt .free

/-- The environments in which a tree of the source and its counterpart are evaluated, where functions
were converted as the placing allows. -/
structure ScopeAt (P : Placing) (V : Vocabulary) (r : Renaming) (n : Int) (env env' : Env) :
    Prop where
  clear : V.Clear r n env env'
  bound : ∀ x, V.source x → ((env.lookup x).isSome ↔ (env'.lookup x).isSome)
  values : ∀ x v v', V.source x → env.lookup x = some v → env'.lookup x = some v' →
    MirrorsAt P V v v'

/-- The environments in which a tree of the source and its counterpart are evaluated. -/
abbrev Scope := ScopeAt .free

/-- A function made in mirrored environments. -/
theorem ScopeAt.mirrors_closure
    {P : Placing} {V : Vocabulary} {r : Renaming} {n : Int} {env env' : Env}
    (h : ScopeAt P V r n env env') {params : List String} {body : Tree} (hbody : Surface false body)
    (hnames : ∀ x ∈ params ++ body.names, V.source x) (id id' : Nat) (name name' : String)
    (hplace : P id body n) :
  MirrorsAt P V (.closure id name params body env)
    (.closure id' name' (params ++ [nameOf "k" n])
      (threaded V.ak (some (.var (nameOf "k" n))) ((r.under params).tree body) (n + 1)).1 env')
  := by
  exact .closure hbody hnames h.clear h.bound h.values hplace

/-- Mirrored values agree on the numbers, and the others are functions. -/
theorem MirrorsAt.correspondence (P : Placing) (V : Vocabulary) :
  Correspondence (MirrorsAt P V) Value.isFunction Value.isFunction
  := by
  constructor
  · intro a b h
    cases h <;> rfl
  · intro a b h
    cases h <;> exact ⟨rfl, rfl⟩
  · intro a b h
    cases h <;> exact ⟨rfl, rfl⟩
  · intro n
    exact .number n

/-- Operators have matching results on mirrored values. -/
theorem MirrorsAt.evaluateBy {P : Placing} {V : Vocabulary} (op : Operator) {vs vs' : List Value}
    (h : List.Forall₂ (MirrorsAt P V) vs vs') :
  Matched (MirrorsAt P V) (op.evaluateBy apart vs) (op.evaluateBy apart vs')
  := by
  exact (MirrorsAt.correspondence P V).evaluateBy op h

/-- What a placing allows, a wider one allows too. -/
theorem MirrorsAt.mono {P Q : Placing} (hPQ : ∀ {id body n}, P id body n → Q id body n)
    {V : Vocabulary} {v v' : Value} (h : MirrorsAt P V v v') :
  MirrorsAt Q V v v'
  := by
  induction h with
  | number n => exact .number n
  | closure hbody hnames hclear hbound _ hplace ih =>
    exact .closure hbody hnames hclear hbound ih (hPQ hplace)

/-! ### Environments -/

/-- Parameters are bound to related arguments under the same names. -/
theorem lookup_bindings
    {R : Value → Value → Prop} {args args' : List Value} (hargs : List.Forall₂ R args args')
    (params : List String) (x : String) :
  (∃ a a', (bindings params args).lookup x = some a ∧ (bindings params args').lookup x = some a'
      ∧ R a a')
    ∨ ((bindings params args).lookup x = none ∧ (bindings params args').lookup x = none)
  := by
  induction hargs generalizing params with
  | nil =>
    right
    unfold bindings
    rw [List.zip_nil_right]
    exact ⟨rfl, rfl⟩
  | @cons a a' args args' ha hargs ih =>
    cases params with
    | nil =>
      right
      exact ⟨rfl, rfl⟩
    | cons p params =>
      have hcons : ∀ (b : Value) (bs : List Value), bindings (p :: params) (b :: bs)
          = bindings params bs ++ [(p, b)] := by
        intro b bs
        rw [bindings, List.zip_cons_cons, List.reverse_cons, bindings]
      rw [hcons, hcons, List.lookup_append, List.lookup_append]
      -- a later parameter of the same name counts, so the tail is asked first
      obtain ⟨b, b', hb, hb', hrel⟩ | ⟨hb, hb'⟩ := ih params
      · left
        rw [hb, hb']
        exact ⟨b, b', rfl, rfl, hrel⟩
      · rw [hb, hb', Option.none_or, Option.none_or, List.lookup_cons, List.lookup_cons]
        split
        · left
          exact ⟨a, a', rfl, rfl, ha⟩
        · right
          exact ⟨rfl, rfl⟩

/-- A name that is no parameter is not bound to an argument. -/
theorem lookup_bindings_of_notMem
    {params : List String} {x : String} (h : x ∉ params) (args : List Value) :
  (bindings params args).lookup x = none
  := by
  rw [List.lookup_eq_none_iff]
  intro b hb
  have hmem : b.1 ∈ params := (List.of_mem_zip (List.mem_reverse.mp hb)).1
  rw [bne_iff_ne]
  rintro rfl
  exact h hmem

/-- The last parameter comes first among the bindings. -/
theorem bindings_append
    {params : List String} {args : List Value} (h : params.length = args.length) (k : String)
    (κ : Value) :
  bindings (params ++ [k]) (args ++ [κ]) = (k, κ) :: bindings params args
  := by
  unfold bindings
  rw [List.zip_append h, List.reverse_append]
  rfl

namespace ScopeAt

variable {P : Placing} {V : Vocabulary} {r : Renaming} {n : Int} {env env' : Env}

/-- Environments that serve from one number on serve from a later one on. -/
theorem mono (h : ScopeAt P V r n env env') {m : Int} (hm : n ≤ m) : ScopeAt P V r m env env' := by
  refine ⟨⟨h.clear.start_le.trans hm, h.clear.ak, ?_⟩, h.bound, h.values⟩
  intro f own hr
  obtain ⟨hself, hf, hown, hspares⟩ := h.clear.self hr
  exact ⟨hself, hf, hown, fun m' => (hspares m').mono hm (le_refl m')⟩

/-- Names that are drawn later do not disturb. -/
theorem extend (h : ScopeAt P V r n env env') {m : Int} {δ : Env} (hδ : Drawn n m δ) :
  ScopeAt P V r n env (δ ++ env')
  := by
  have hsource : ∀ x, V.source x → (δ ++ env').lookup x = env'.lookup x := by
    intro x hx
    exact hδ.lookup ((V.source_spared hx m).mono h.clear.start_le (le_refl m)) env'
  refine ⟨⟨h.clear.start_le, ?_, ?_⟩, ?_, ?_⟩
  · rw [hδ.lookup ((V.ak_spared m).mono h.clear.start_le (le_refl m))]
    exact h.clear.ak
  · intro f own hr
    obtain ⟨hself, hf, hown, hspares⟩ := h.clear.self hr
    refine ⟨hself, hf, ?_, hspares⟩
    rw [hδ.lookup (hspares m)]
    exact hown
  · intro x hx
    rw [hsource x hx]
    exact h.bound x hx
  · intro x v v' hx hv hv'
    rw [hsource x hx] at hv'
    exact h.values x v v' hx hv hv'

/-- The environments in which the body of a function and that of its counterpart are
evaluated. -/
theorem enter
    (h : ScopeAt P V r n env env') {params : List String} (hparams : ∀ x ∈ params, V.source x)
    {args args' : List Value} (hargs : List.Forall₂ (MirrorsAt P V) args args')
    (hlength : params.length = args.length) (κ : Value) :
  ScopeAt P V (r.under params) (n + 1) (bindings params args ++ env)
    (bindings (params ++ [nameOf "k" n]) (args' ++ [κ]) ++ env')
  := by
  have hlength' : params.length = args'.length := hlength.trans hargs.length_eq
  rw [bindings_append hlength', List.cons_append]
  have hskip : ∀ x, x ≠ nameOf "k" n →
      ((nameOf "k" n, κ) :: (bindings params args' ++ env')).lookup x
        = (bindings params args' ++ env').lookup x := by
    intro x hx
    rw [List.lookup_cons, beq_false_of_ne hx]
  have hsource : ∀ x, V.source x → x ≠ nameOf "k" n := by
    intro x hx
    exact V.source_spared hx (n + 1) "k" n h.clear.start_le (by omega)
  refine ⟨⟨h.clear.start_le.trans (by omega), ?_, ?_⟩, ?_, ?_⟩
  · have hak : V.ak ∉ params := fun hmem => V.ak_notSource (hparams _ hmem)
    rw [hskip _ (V.ak_spared (n + 1) "k" n h.clear.start_le (by omega)), List.lookup_append,
      lookup_bindings_of_notMem hak, Option.none_or]
    exact h.clear.ak
  · intro f own hr
    rw [Renaming.under, Option.filter_eq_some_iff] at hr
    obtain ⟨hr, hf⟩ := hr
    obtain ⟨hself, hfenv, hown, hspares⟩ := h.clear.self hr
    have hf : f ∉ params := by simpa using hf
    have hownParams : own ∉ params := fun hmem => V.self_notSource hself (hparams _ hmem)
    refine ⟨hself, ?_, ?_, fun m => (hspares m).mono (by omega) (le_refl m)⟩
    · rw [List.lookup_append, lookup_bindings_of_notMem hf, Option.none_or, hfenv]
    · rw [hskip _ (hspares (n + 1) "k" n (le_refl n) (by omega)), List.lookup_append,
        lookup_bindings_of_notMem hownParams, Option.none_or, hown]
  · intro x hx
    rw [hskip x (hsource x hx), List.lookup_append, List.lookup_append]
    obtain ⟨a, a', ha, ha', -⟩ | ⟨ha, ha'⟩ := lookup_bindings hargs params x
    · rw [ha, ha', Option.some_or, Option.some_or, Option.isSome_some, Option.isSome_some]
    · rw [ha, ha', Option.none_or, Option.none_or]
      exact h.bound x hx
  · intro x v v' hx hv hv'
    rw [hskip x (hsource x hx), List.lookup_append] at hv'
    rw [List.lookup_append] at hv
    obtain ⟨a, a', ha, ha', hrel⟩ | ⟨ha, ha'⟩ := lookup_bindings hargs params x
    · rw [ha] at hv
      rw [ha'] at hv'
      cases hv
      cases hv'
      exact hrel
    · rw [ha] at hv
      rw [ha'] at hv'
      exact h.values x v v' hx hv hv'

/-- Environments that serve under a placing serve under a wider one. -/
theorem widen {Q : Placing} (hPQ : ∀ {id body n}, P id body n → Q id body n)
    (h : ScopeAt P V r n env env') :
  ScopeAt Q V r n env env'
  := by
  exact ⟨h.clear, h.bound, fun x v v' hx hv hv' => (h.values x v v' hx hv hv').mono hPQ⟩

end ScopeAt

/-! ### Global names -/

/-- The value of a name: its local one, or else its global one. -/
def find (env : Env) (globals : List (String × Value)) (x : String) : Option Value :=
  (env.lookup x).or (globals.lookup x)

/-- Looking up a name finds its value and changes nothing. -/
theorem lookup_eq_ok {env : Env} {x : String} {s s' : State} {v : Value} :
  lookup env x s = .ok v s' ↔ find env s.globals x = some v ∧ s = s'
  := by
  unfold lookup find
  cases hlocal : env.lookup x with
  | some w =>
    rw [Option.some_or, Option.some_inj]
    exact pure_eq_ok
  | none =>
    rw [Option.none_or]
    have hget : (get : Eval State) s = .ok s s := rfl
    dsimp only
    rw [bind_of_ok hget]
    cases hglobal : s.globals.lookup x with
    | some w =>
      rw [Option.some_inj]
      exact pure_eq_ok
    | none =>
      constructor
      · intro h
        contradiction
      · rintro ⟨h, -⟩
        contradiction

/-- The body of the function that hands a value to a continuation. -/
def handing : Tree :=
  .application (.var "f") [.var "v"]

/-- The values of the global names of a program and of its converted counterpart, where functions
were converted as the placing allows. Where they are matched strictly, the counterpart gives no value
to a name of the source that has none. -/
structure GlobalsAt (P : Placing) (V : Vocabulary) (strict : Prop) (G G' : List (String × Value)) :
    Prop where
  helper : ∃ id name, G'.lookup V.ak = some (.closure id name ["f", "v"] handing [])
  source_forth {x : String} {v : Value} : V.source x → G.lookup x = some v →
    ∃ v', G'.lookup x = some v' ∧ MirrorsAt P V v v'
  source_back {x : String} {v' : Value} : strict → V.source x → G'.lookup x = some v' →
    ∃ v, G.lookup x = some v ∧ MirrorsAt P V v v'
  self_forth {f own : String} {v : Value} : V.selves f own → G.lookup f = some v →
    ∃ v', G'.lookup own = some v' ∧ MirrorsAt P V v v'
  self_back {f own : String} {v' : Value} : strict → V.selves f own → G'.lookup own = some v' →
    ∃ v, G.lookup f = some v ∧ MirrorsAt P V v v'

/-- The values of the global names of a program and of its converted counterpart. -/
abbrev Globals := GlobalsAt .free

/-- Global names that are matched under a placing are matched under a wider one. -/
theorem GlobalsAt.widen {P Q : Placing} (hPQ : ∀ {id body n}, P id body n → Q id body n)
    {V : Vocabulary} {strict : Prop} {G G' : List (String × Value)} (h : GlobalsAt P V strict G G') :
  GlobalsAt Q V strict G G'
  := by
  refine ⟨h.helper, ?_, ?_, ?_, ?_⟩
  · intro x v hx hv
    obtain ⟨v', hv', hmirrors⟩ := h.source_forth hx hv
    exact ⟨v', hv', hmirrors.mono hPQ⟩
  · intro x v' hstrict hx hv'
    obtain ⟨v, hv, hmirrors⟩ := h.source_back hstrict hx hv'
    exact ⟨v, hv, hmirrors.mono hPQ⟩
  · intro f own v hself hv
    obtain ⟨v', hv', hmirrors⟩ := h.self_forth hself hv
    exact ⟨v', hv', hmirrors.mono hPQ⟩
  · intro f own v' hstrict hself hv'
    obtain ⟨v, hv, hmirrors⟩ := h.self_back hstrict hself hv'
    exact ⟨v, hv, hmirrors.mono hPQ⟩

/-- A new closure is numbered by the closures made before it. -/
theorem makeClosure_eq
    (name : String) (params : List String) (body : Tree) (env : Env) (s : State) :
  makeClosure name params body env s
    = .ok (.closure s.made name params body env) { s with made := s.made + 1 }
  := by
  rfl

/-- States in which the global names have the given values. -/
def Holds (G : List (String × Value)) (s : State) : Prop :=
  s.globals = G

section Values

variable {V : Vocabulary} {strict : Prop} {G G' : List (String × Value)}

/-- What a name of the source stands for is mirrored by what its new name stands for. -/
theorem find_forth
    {P : Placing} (hG : GlobalsAt P V strict G G') {r : Renaming} {n : Int} {env env' : Env}
    (h : ScopeAt P V r n env env') {x : String} (hx : V.source x) {v : Value}
    (hv : find env G x = some v) :
  ∃ v', find env' G' (r.name x) = some v' ∧ MirrorsAt P V v v'
  := by
  unfold find at hv ⊢
  obtain ⟨own, hr, hname⟩ | hname := r.name_cases x
  · obtain ⟨hself, hf, hown, -⟩ := h.clear.self hr
    rw [hf, Option.none_or] at hv
    rw [hname, hown, Option.none_or]
    exact hG.self_forth hself hv
  · rw [hname]
    have hbound := h.bound x hx
    cases hlocal : env.lookup x with
    | some w =>
      rw [hlocal, Option.isSome_some, eq_self, true_iff, Option.isSome_iff_exists] at hbound
      obtain ⟨w', hw'⟩ := hbound
      rw [hlocal, Option.some_or] at hv
      cases hv
      rw [hw', Option.some_or]
      exact ⟨w', rfl, h.values x v w' hx hlocal hw'⟩
    | none =>
      rw [hlocal, Option.isSome_none, Bool.false_eq_true, false_iff, Option.not_isSome_iff_eq_none]
        at hbound
      rw [hlocal, Option.none_or] at hv
      rw [hbound, Option.none_or]
      exact hG.source_forth hx hv

variable (hG : Globals V strict G G')
include hG

/-- Where globals are matched strictly, the new name of a name of the source stands for something
only if the name does. -/
theorem find_back
    (hstrict : strict) {r : Renaming} {n : Int} {env env' : Env} (h : Scope V r n env env')
    {x : String} (hx : V.source x) {v' : Value} (hv : find env' G' (r.name x) = some v') :
  ∃ v, find env G x = some v ∧ Mirrors V v v'
  := by
  unfold find at hv ⊢
  obtain ⟨own, hr, hname⟩ | hname := r.name_cases x
  · obtain ⟨hself, hf, hown, -⟩ := h.clear.self hr
    rw [hname, hown, Option.none_or] at hv
    rw [hf, Option.none_or]
    exact hG.self_back hstrict hself hv
  · rw [hname] at hv
    have hbound := h.bound x hx
    cases hlocal : env'.lookup x with
    | some w' =>
      rw [hlocal, Option.isSome_some, eq_self, iff_true, Option.isSome_iff_exists] at hbound
      obtain ⟨w, hw⟩ := hbound
      rw [hlocal, Option.some_or] at hv
      cases hv
      rw [hw, Option.some_or]
      exact ⟨w, rfl, h.values x w v' hx hw hlocal⟩
    | none =>
      rw [hlocal, Option.isSome_none, Bool.false_eq_true, iff_false, Option.not_isSome_iff_eq_none]
        at hbound
      rw [hlocal, Option.none_or] at hv
      rw [hbound, Option.none_or]
      exact hG.source_back hstrict hx hv

/-- A name of the source and its new name evaluate to mirrored values. -/
theorem carried_lookup
    {r : Renaming} {n : Int} {env env' : Env} (h : Scope V r n env env') {x : String}
    (hx : V.source x) :
  Carried strict (Holds G) (Holds G') (Mirrors V) (lookup env x) (lookup env' (r.name x))
  := by
  constructor
  · intro s t v s' hs ht hv
    obtain ⟨hfound, rfl⟩ := lookup_eq_ok.mp hv
    rw [hs] at hfound
    obtain ⟨v', hv', hmirrors⟩ := find_forth hG h hx hfound
    rw [← ht] at hv'
    exact ⟨hs, v', t, lookup_eq_ok.mpr ⟨hv', rfl⟩, hmirrors, ht⟩
  · intro s t v' t' hstrict hs ht hv'
    obtain ⟨hfound, rfl⟩ := lookup_eq_ok.mp hv'
    rw [ht] at hfound
    obtain ⟨v, hv, hmirrors⟩ := find_back hG hstrict h hx hfound
    rw [← hs] at hv
    exact ⟨ht, v, s, lookup_eq_ok.mpr ⟨hv, rfl⟩, hmirrors, hs⟩

omit hG in
/-- Steps that may fault match when their results do. -/
theorem carried_attempt
    {I : State → Prop} {J : State → Prop} {R : Value → Value → Prop} {x y : Except Fault Value}
    (h : Matched R x y) :
  Carried strict I J R (attempt x) (attempt y)
  := by
  cases h with
  | ok h => exact .pure h
  | error e e' => exact .of_fail (fun _ _ _ => throw_ne_ok) (fun _ _ _ _ => throw_ne_ok)

/-- A trivial tree evaluates to a mirrored value where the tree itself has been threaded without
a continuation. -/
def CarriesValue (V : Vocabulary) (strict : Prop) (G G' : List (String × Value)) (t : Tree) : Prop :=
  t.isTrivial → (∀ x ∈ t.names, V.source x) →
    ∀ {r : Renaming} {n m : Int} {env env' : Env}, Scope V r n env env' → n ≤ m →
      ∀ call call', Carried strict (Holds G) (Holds G') (Mirrors V) (evalBy apart call env t)
        (evalBy apart call' env' (threaded V.ak none (r.tree t) m).1)

omit hG in
/-- Trivial operands evaluate to mirrored values. -/
theorem carried_values
    {ts : List Tree} (hts : ∀ t ∈ ts, CarriesValue V strict G G' t) (htrivial : allTrivial ts)
    (hnames : ∀ x ∈ namesAll ts, V.source x) {r : Renaming} {n m : Int} {env env' : Env}
    (h : Scope V r n env env') (hm : n ≤ m) (call call' : Value → List Value → Eval Value) :
  Carried strict (Holds G) (Holds G') (List.Forall₂ (Mirrors V)) (evalAllBy apart call env ts)
    (evalAllBy apart call' env' (threadedParts V.ak (r.trees ts) m).1.1)
  := by
  induction ts generalizing m with
  | nil =>
    rw [Renaming.trees, threadedParts, evalAllBy]
    exact .pure .nil
  | cons t ts ih =>
    rw [allTrivial, Bool.and_eq_true] at htrivial
    simp only [namesAll, List.mem_append] at hnames
    have hfirst := hts t List.mem_cons_self htrivial.1 (fun x hx => hnames x (.inl hx)) h hm
      call call'
    have hle := hm.trans (le_threaded V.ak none (r.tree t) m)
    have hrest := ih (fun t ht => hts t (List.mem_cons_of_mem _ ht)) htrivial.2
      (fun x hx => hnames x (.inr hx)) hle
    rw [Renaming.trees, threadedParts, if_pos ((r.isTrivial_tree t).trans htrivial.1), evalAllBy,
      evalAllBy]
    apply hfirst.bind
    intro v v' hv
    apply hrest.bind
    intro vs vs' hvs
    exact .pure (.cons hv hvs)

/-- Trivial trees evaluate to mirrored values. -/
theorem carried_value {t : Tree} (ht : Surface false t) : CarriesValue V strict G G' t := by
  induction ht with
  | literal value =>
    intro _ _ r n m env env' h hm call call'
    rw [Renaming.tree, threaded, evalBy, handed, evalBy]
    exact .pure (.number value)
  | var x =>
    intro _ hnames r n m env env' h hm call call'
    rw [Renaming.tree, threaded, evalBy, handed, evalBy]
    exact carried_lookup hG h (hnames x (List.mem_singleton_self x))
  | @operation op operands _ _ ih =>
    intro htrivial hnames r n m env env' h hm call call'
    have htrivial' : allTrivial (r.trees operands) := (r.allTrivial_trees operands).trans htrivial
    rw [Renaming.tree, threaded, threadedPending_of_allTrivial V.ak htrivial', evalBy, handed,
      evalBy]
    apply (carried_values ih htrivial hnames h hm call call').bind
    intro vs vs' hvs
    exact carried_attempt (MirrorsAt.evaluateBy op hvs)
  | @trivialConditional test conseq alt htrivial _ _ _ ihtest ihconseq ihalt =>
    intro _ hnames r n m env env' h hm call call'
    simp only [names, List.mem_append] at hnames
    have htest := ihtest htrivial.1 (fun x hx => hnames x (.inl (.inl hx))) h hm call call'
    have hm := hm.trans (le_threaded V.ak none (r.tree test) m)
    have hconseq := ihconseq htrivial.2.1 (fun x hx => hnames x (.inl (.inr hx))) h hm call call'
    have hm := hm.trans (le_threaded V.ak none (r.tree conseq) _)
    have halt := ihalt htrivial.2.2 (fun x hx => hnames x (.inr hx)) h hm call call'
    rw [Renaming.tree, threaded, evalBy, handed, evalBy]
    apply htest.bind
    intro v v' hv
    rw [(MirrorsAt.correspondence _ V).isTrue hv]
    split
    · exact hconseq
    · exact halt
  | seriousConditional _ _ _ _ _ _ =>
    intro htrivial
    contradiction
  | @abstraction params body hbody _ =>
    intro _ hnames r n m env env' h hm call call'
    have hmirrors := (h.mono hm).mirrors_closure hbody hnames
    rw [Renaming.tree, threaded, evalBy, handed, evalBy]
    constructor
    · intro s s' v s₁ hs hs' hv
      rw [makeClosure_eq] at hv
      cases hv
      exact ⟨hs, _, _, makeClosure_eq _ _ _ _ s', hmirrors _ _ _ _ trivial, hs'⟩
    · intro s s' v' s₁' _ hs hs' hv'
      rw [makeClosure_eq] at hv'
      cases hv'
      exact ⟨hs', _, _, makeClosure_eq _ _ _ _ s, hmirrors _ _ _ _ trivial, hs⟩
  | definition name params hnested _ _ => contradiction
  | application _ _ _ _ =>
    intro htrivial
    contradiction

end Values

end Springboard.Evaluation
