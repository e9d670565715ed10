import Springboard.Proofs.Aiming

/-!
# Calls of functions

What a call of a function does on the two sides. The machine gives back a suspension of the body,
in which the parameters stand for the arguments as they do in evaluation. An entry makes a flag
around the continuation that it was given, and bounces on the suspension until that flag is set. A
value that is handed to a continuation sets the flags on its way.
-/

namespace Springboard.Machine

/-! ### Programs that fit together -/

/-- The global names of the machine that a function may use stand for entries. -/
def Setting.Admits (S : Setting) (I : Idiom S.ident S.ak) : Prop :=
  ∀ x v, I.data x ∨ I.cont x → S.space.lookup (S.ident x) = some v →
    ∃ r id, S.routines r ∧ v = S.entryValue r id

/-- The values of a name on the two sides are related, or it has none on either. -/
def Agree (S : Setting) (env : Evaluation.Env) (env' : Env) (x : String) : Prop :=
  (∃ v v', Evaluation.find env S.globals x = some v ∧ find env' S.space (S.ident x) = some v'
      ∧ Tracks S v v')
    ∨ (Evaluation.find env S.globals x = none ∧ find env' S.space (S.ident x) = none)

/-- A routine that is written with the names of an idiom. -/
structure Setting.Suits (S : Setting) (r : Routine) (I : Idiom S.ident S.ak) : Prop where
  admits : S.Admits I
  params {x : String} : x ∈ r.params → I.data x
  nodup : r.params.Nodup
  k : I.cont r.k
  own : I.data r.own
  own_notParam : r.own ∉ r.params
  body : Fragment I (.tail r.k) r.body
  flag {x : String} : I.data x ∨ I.cont x → S.ident r.flag ≠ S.ident x
  flag_helper : S.ident r.flag ≠ S.ident S.ak
  makeFlag {x : String} : I.data x ∨ I.cont x → S.ident S.makeFlag ≠ S.ident x
  trampoline {x : String} : I.data x ∨ I.cont x → S.ident S.trampoline ≠ S.ident x
  trampoline_flag : S.ident S.trampoline ≠ S.ident r.flag
  self : ∃ id, S.globals.lookup r.own = some (r.value id)
  names {x : String} : I.data x → x ≠ r.own → Agree S [] [] x

/-- A program whose parts are all there: its helpers, and routines that are written with names
which tell data and continuations apart. -/
structure Setting.Fits (S : Setting) : Prop extends S.HandsOn where
  makeFlag : S.space.lookup (S.ident S.makeFlag) = some (.helper .makeFlag)
  trampoline : S.space.lookup (S.ident S.trampoline) = some (.helper .trampoline)
  routine {r : Routine} : S.routines r → ∃ I, S.Suits r I

/-! ### Parameters and arguments -/

/-- Distinct parameters are bound to related arguments on both sides. -/
theorem lookup_params
    {R : Evaluation.Value → Value → Prop} {args : List Evaluation.Value} {args' : List Value}
    (hargs : List.Forall₂ R args args') {params : List String} (hnodup : params.Nodup)
    {ident : String → String} {x : String} (hident : ∀ y ∈ params, ident x = ident y → x = y) :
  (∃ a a', (Evaluation.bindings params args).lookup x = some a
      ∧ (bindings (params.map ident) args').lookup (ident x) = some a' ∧ R a a')
    ∨ ((Evaluation.bindings params args).lookup x = none
      ∧ (bindings (params.map ident) args').lookup (ident x) = none)
  := by
  induction hargs generalizing params with
  | nil =>
    right
    unfold Evaluation.bindings bindings
    rw [List.zip_nil_right, List.zip_nil_right]
    exact ⟨rfl, rfl⟩
  | @cons a a' args args' ha _ ih =>
    cases params with
    | nil =>
      right
      exact ⟨rfl, rfl⟩
    | cons p params =>
      obtain ⟨hp, hparams⟩ := List.nodup_cons.mp hnodup
      have heval : Evaluation.bindings (p :: params) (a :: args)
          = Evaluation.bindings params args ++ [(p, a)] := by
        rw [Evaluation.bindings, List.zip_cons_cons, List.reverse_cons, Evaluation.bindings]
      have hmachine : bindings ((p :: params).map ident) (a' :: args')
          = (ident p, a') :: bindings (params.map ident) args' := by
        rw [bindings, List.map_cons, List.zip_cons_cons, bindings]
      rw [heval, hmachine, List.lookup_append, List.lookup_cons]
      by_cases hx : x = p
      · left
        subst hx
        rw [Evaluation.lookup_bindings_of_notMem hp, Option.none_or, List.lookup_cons_self,
          beq_self_eq_true]
        exact ⟨a, a', rfl, rfl, ha⟩
      · have hne : ident x ≠ ident p := fun h => hx (hident p List.mem_cons_self h)
        rw [List.lookup_cons, beq_false_of_ne hx, beq_false_of_ne hne, List.lookup_nil,
          Option.or_none]
        exact ih hparams fun y hy => hident y (List.mem_cons_of_mem _ hy)

/-- As many arguments as there are parameters leave none of the parameters without a value. -/
theorem lookup_isSome
    {params : List String} {args : List Evaluation.Value} (h : params.length = args.length)
    {x : String} (hx : x ∈ params) :
  ((Evaluation.bindings params args).lookup x).isSome
  := by
  rw [← List.map_fst_zip (Nat.le_of_eq h)] at hx
  obtain ⟨b, hb, rfl⟩ := List.mem_map.mp hx
  cases hlookup : (Evaluation.bindings params args).lookup b.1 with
  | some v => rfl
  | none =>
    rw [List.lookup_eq_none_iff] at hlookup
    have hne := hlookup b (List.mem_reverse.mpr hb)
    simp at hne

section Binding

variable {S : Setting} {I : Idiom S.ident S.ak} {env : Evaluation.Env} {env' : Env}

/-- Matching environments agree on every name for data. -/
theorem Matches.agree (h : Matches S I env env') {x : String} (hx : I.data x) :
  Agree S env env' x
  := by
  have hbound := h.bound x hx
  cases hv : Evaluation.find env S.globals x with
  | some v =>
    left
    rw [hv, Option.isSome_some, eq_self, true_iff, Option.isSome_iff_exists] at hbound
    obtain ⟨v', hv'⟩ := hbound
    exact ⟨v, v', hv, hv', h.values x v v' hx hv hv'⟩
  | none =>
    right
    rw [hv, Option.isSome_none, Bool.false_eq_true, false_iff, Option.not_isSome_iff_eq_none]
      at hbound
    exact ⟨hv, hbound⟩

/-- Environments that agree on the names for data match. -/
theorem Matches.of_agree (hak : env.lookup S.ak = none) (hak' : env'.lookup (S.ident S.ak) = none)
    (h : ∀ x, I.data x → Agree S env env' x) :
  Matches S I env env'
  := by
  refine ⟨hak, hak', ?_, ?_⟩
  · intro x hx
    obtain ⟨v, v', hv, hv', -⟩ | ⟨hv, hv'⟩ := h x hx
    · rw [hv, hv']
      exact Iff.rfl
    · rw [hv, hv']
      exact Iff.rfl
  · intro x v v' hx hv hv'
    obtain ⟨u, u', hu, hu', htracks⟩ | ⟨hu, hu'⟩ := h x hx
    · rw [hu] at hv
      rw [hu'] at hv'
      cases hv
      cases hv'
      exact htracks
    · rw [hu] at hv
      contradiction

/-- The value of a name behind some bindings that do not have it. -/
theorem find_append {δ env : Env} {globals : Namespace} {x : String} (h : δ.lookup x = none) :
  find (δ ++ env) globals x = find env globals x
  := by
  rw [find, List.lookup_append, h, Option.none_or, find]

/-- The value of a name that is bound first. -/
theorem find_cons_self (x : String) (v : Value) (env : Env) (globals : Namespace) :
  find ((x, v) :: env) globals x = some v
  := by
  rw [find, List.lookup_cons_self, Option.some_or]

/-- The value of a name that is not bound locally. -/
theorem find_of_none {env : Env} {x : String} (h : env.lookup x = none) (globals : Namespace) :
  find env globals x = globals.lookup x
  := by
  rw [find, h, Option.none_or]

/-- A name that the idiom has for data is not that of a continuation. -/
theorem ne_cont {x k : String} (hx : I.data x) (hk : I.cont k) :
  x ≠ k ∧ S.ident x ≠ S.ident k
  := by
  have hne : x ≠ k := by
    rintro rfl
    exact I.cont_notData hk hx
  exact ⟨hne, fun h => hne (I.injective (.inl hx) (.inr hk) h)⟩

/-- Parameters that are bound to related arguments match, if the environments agree on the other
names. -/
theorem Matches.of_params
    {params : List String} (hparams : ∀ x ∈ params, I.data x) (hnodup : params.Nodup)
    {args : List Evaluation.Value} {args' : List Value}
    (hargs : List.Forall₂ (Tracks S) args args') (hlength : params.length = args.length)
    (hak : env.lookup S.ak = none) (hak' : env'.lookup (S.ident S.ak) = none)
    (h : ∀ x, I.data x → x ∉ params → Agree S env env' x) :
  Matches S I (Evaluation.bindings params args ++ env)
    (bindings (params.map S.ident) args' ++ env')
  := by
  have hhelper : ∀ y ∈ params, S.ident S.ak ≠ S.ident y :=
    fun y hy => (I.helper (.inl (hparams y hy))).symm
  apply Matches.of_agree
  · have hmem : S.ak ∉ params := fun hy => hhelper _ hy rfl
    rw [List.lookup_append, Evaluation.lookup_bindings_of_notMem hmem, Option.none_or, hak]
  · have hident : ∀ y ∈ params, S.ident S.ak = S.ident y → S.ak = y :=
      fun y hy heq => absurd heq (hhelper y hy)
    have hmem : S.ak ∉ params := fun hy => hhelper _ hy rfl
    obtain ⟨a, a', ha, -, -⟩ | ⟨-, ha'⟩ := lookup_params hargs hnodup hident
    · rw [Evaluation.lookup_bindings_of_notMem hmem] at ha
      contradiction
    · rw [List.lookup_append, ha', Option.none_or, hak']
  · intro x hx
    have hident : ∀ y ∈ params, S.ident x = S.ident y → x = y :=
      fun y hy => I.injective (.inl hx) (.inl (hparams y hy))
    unfold Agree
    obtain ⟨a, a', ha, ha', htracks⟩ | ⟨ha, ha'⟩ := lookup_params hargs hnodup hident
    · left
      rw [Evaluation.find, List.lookup_append, ha, find, List.lookup_append, ha']
      exact ⟨a, a', rfl, rfl, htracks⟩
    · have hmem : x ∉ params := by
        intro hmem
        have hsome := lookup_isSome hlength hmem
        rw [ha] at hsome
        contradiction
      have hfind : Evaluation.find (Evaluation.bindings params args ++ env) S.globals x
          = Evaluation.find env S.globals x := by
        rw [Evaluation.find, List.lookup_append, ha, Option.none_or, Evaluation.find]
      rw [hfind, find_append ha']
      exact h x hx hmem

/-- The name of a continuation does not disturb the names for data. -/
theorem Agree.cons_cont {k : String} (hk : I.cont k) (κ : Evaluation.Value) (κ' : Value)
    {x : String} (hx : I.data x) (h : Agree S env env' x) :
  Agree S ((k, κ) :: env) env' x ∧ Agree S env ((S.ident k, κ') :: env') x
  := by
  obtain ⟨hne, hne'⟩ := ne_cont hx hk
  have hfind : Evaluation.find ((k, κ) :: env) S.globals x = Evaluation.find env S.globals x := by
    rw [Evaluation.find, List.lookup_cons, beq_false_of_ne hne, Evaluation.find]
  have hfind' : find ((S.ident k, κ') :: env') S.space (S.ident x)
      = find env' S.space (S.ident x) := by
    rw [find, List.lookup_cons, beq_false_of_ne hne', find]
  unfold Agree
  rw [hfind, hfind']
  exact ⟨h, h⟩

/-- The body of a function is run where its parameters stand for the arguments and its last
parameter for the continuation. -/
theorem Continued.of_params
    {κ₀ κ : Evaluation.Value} {κ' : Value} {flags : Array Flag} {stack : List Nat}
    (hlive : stack ≠ []) {params : List String} (hparams : ∀ x ∈ params, I.data x)
    (hnodup : params.Nodup) {k : String} (hk : I.cont k)
    {args : List Evaluation.Value} {args' : List Value}
    (hargs : List.Forall₂ (Tracks S) args args') (hlength : params.length = args.length)
    (hκ : Continues S κ₀ flags stack κ κ') (hak : env.lookup S.ak = none)
    (hak' : env'.lookup (S.ident S.ak) = none)
    (h : ∀ x, I.data x → x ∉ params → Agree S env env' x) :
  Continued S κ₀ flags stack I k (Evaluation.bindings (params ++ [k]) (args ++ [κ]) ++ env)
    (bindings ((params ++ [k]).map S.ident) (args' ++ [κ']) ++ env')
  := by
  have hlength' : (params.map S.ident).length = args'.length := by
    rw [List.length_map, hlength, hargs.length_eq]
  have hmachine : bindings ((params ++ [k]).map S.ident) (args' ++ [κ']) ++ env'
      = bindings (params.map S.ident) args' ++ (S.ident k, κ') :: env' := by
    unfold bindings
    rw [List.map_append, List.zip_append hlength', List.append_assoc]
    rfl
  have hne : S.ident S.ak ≠ S.ident k := (I.helper (.inr hk)).symm
  have hmatches : Matches S I (Evaluation.bindings params args ++ env)
      (bindings (params.map S.ident) args' ++ (S.ident k, κ') :: env') := by
    apply Matches.of_params hparams hnodup hargs hlength hak
    · rw [List.lookup_cons, beq_false_of_ne hne, hak']
    · intro x hx hmem
      exact ((h x hx hmem).cons_cont hk κ κ' hx).2
  have hparam : ∀ y ∈ params, S.ident k = S.ident y → k = y :=
    fun y hy heq => absurd heq (ne_cont (hparams y hy) hk).2.symm
  rw [hmachine, Evaluation.bindings_append hlength, List.cons_append]
  refine ⟨hlive, hk, ?_, κ, κ', List.lookup_cons_self, ?_, hκ⟩
  · apply Matches.of_agree
    · have hne : S.ak ≠ k := fun heq => hne (congrArg S.ident heq)
      rw [List.lookup_cons, beq_false_of_ne hne]
      exact hmatches.ak
    · exact hmatches.ak'
    · intro x hx
      exact ((hmatches.agree hx).cons_cont hk κ κ' hx).1
  · obtain ⟨a, a', ha, -, -⟩ | ⟨-, ha'⟩ := lookup_params hargs hnodup hparam
    · have hmem : k ∉ params := fun hmem => I.cont_notData hk (hparams k hmem)
      rw [Evaluation.lookup_bindings_of_notMem hmem] at ha
      contradiction
    · rw [List.lookup_append, ha', Option.none_or, List.lookup_cons_self]

end Binding

/-! ### Suspensions -/

/-- A suspension of the machine, and the tail that evaluation goes on with in its place. -/
inductive Suspends (S : Setting) (κ₀ : Evaluation.Value) (flags : Array Flag) (stack : List Nat) :
    Evaluation.Env → Tree → Value → Prop
  | intro {I : Idiom S.ident S.ak} {k : String} {t : Tree} {env : Evaluation.Env} {env' : Env}
      (id : Nat) (ht : Fragment I (.tail k) t)
      (h : Continued S κ₀ flags stack I k env env') :
      Suspends S κ₀ flags stack env t (.closure id S.home none [] (codeOf S.ident t) env')

/-- A call that is put off: the machine gives back a suspension of what evaluation goes on with. The
function that is entered has the given parameters on both sides. -/
def Defers (S : Setting) (κ₀ : Evaluation.Value) (flags : Array Flag) (stack : List Nat)
    (f : Evaluation.Value) (args : List Evaluation.Value) (f' : Value) (args' : List Value) :
    Prop :=
  ∃ params env t,
    (∀ {s entered target s'}, Evaluation.Arrives env t s entered target s' →
      Evaluation.Passes (f, args) s (params :: entered) target s')
    ∧ (∀ n, Evaluation.callBy Evaluation.apart (n + 1) f args
      = Evaluation.evalBy Evaluation.apart (Evaluation.callBy Evaluation.apart n) env t)
    ∧ ∀ st, ∃ work, Suspends S κ₀ flags stack env t work
      ∧ ∀ w m entered, callLogging w S.spaces (m + 1) f' args' ⟨st, entered⟩
        = .ok work ⟨⟨st.flags, st.made + 1⟩, entered ++ [params.map S.ident]⟩

/-- Without the log, a call that is put off gives back a suspension. -/
theorem Defers.suspends
    {S : Setting} {κ₀ : Evaluation.Value} {flags : Array Flag} {stack : List Nat}
    {f : Evaluation.Value} {args : List Evaluation.Value} {f' : Value} {args' : List Value}
    (h : Defers S κ₀ flags stack f args f' args') :
  ∃ env t, (∀ n, Evaluation.callBy Evaluation.apart (n + 1) f args
      = Evaluation.evalBy Evaluation.apart (Evaluation.callBy Evaluation.apart n) env t)
    ∧ ∀ w m st, ∃ work, callBy w S.spaces (m + 1) f' args' st = .ok work ⟨st.flags, st.made + 1⟩
      ∧ Suspends S κ₀ flags stack env t work
  := by
  obtain ⟨params, env, t, -, heval, hmachine⟩ := h
  refine ⟨env, t, heval, ?_⟩
  intro w m st
  obtain ⟨work, hsuspends, hwork⟩ := hmachine st
  exact ⟨work, (shows_callLogging w S.spaces (m + 1) f' args').eq_ok (hwork w m []), hsuspends⟩

/-- A call that has no value on either side. -/
def Refuses (f : Evaluation.Value) (args : List Evaluation.Value) (f' : Value)
    (args' : List Value) : Prop :=
  (∀ n s v s', Evaluation.callBy Evaluation.apart n f args s ≠ .ok v s')
    ∧ ∀ w spaces m st v st', callBy w spaces m f' args' st ≠ .ok v st'

/-- A call of a function whose body is suspended gives back the suspension. -/
theorem callLogging_suspending
    (w : Watch) (spaces : List Namespace) (m id home : Nat) (own : Option String)
    {params : List String} (code : Code) (env : Env) {args : List Value}
    (h : params.length = args.length) (st : State) (entered : List (List String)) :
  callLogging w spaces (m + 1) (.closure id home own params (.lambda [] code) env) args ⟨st, entered⟩
    = .ok (.closure st.made home none [] code (bindings params args
        ++ ((own.map fun x => (x, Value.closure id home own params (.lambda [] code) env)).toList
          ++ env))) ⟨⟨st.flags, st.made + 1⟩, entered ++ [params]⟩
  := by
  rw [callLogging.eq_def]
  dsimp only
  rw [if_pos h, execLogging, List.append_assoc]
  rfl

/-- Without the log, a call of a function whose body is suspended gives back the suspension. -/
theorem callBy_suspending
    (w : Watch) (spaces : List Namespace) (m id home : Nat) (own : Option String)
    {params : List String} (code : Code) (env : Env) {args : List Value}
    (h : params.length = args.length) (st : State) :
  callBy w spaces (m + 1) (.closure id home own params (.lambda [] code) env) args st
    = .ok (.closure st.made home none [] code (bindings params args
        ++ ((own.map fun x => (x, Value.closure id home own params (.lambda [] code) env)).toList
          ++ env))) ⟨st.flags, st.made + 1⟩
  := by
  exact (shows_callLogging w spaces (m + 1) _ args).eq_ok
    (callLogging_suspending w spaces m id home own code env h st [])

/-- A name that a function does not hide has in the body the value that it has around the
function. -/
theorem lookup_called
    {params : List String} {args : List Value} {own : Option String} {f : Value} {env : Env}
    {x : String} (h : x ∉ params ++ own.toList) :
  (bindings params args ++ ((own.map fun y => (y, f)).toList ++ env)).lookup x = env.lookup x
  := by
  rw [List.mem_append, not_or] at h
  have hparams : (bindings params args).lookup x = none := by
    rw [List.lookup_eq_none_iff]
    intro b hb
    rw [bne_iff_ne]
    rintro rfl
    exact h.1 (List.of_mem_zip hb).1
  have hown : ((own.map fun y => (y, f)).toList).lookup x = none := by
    rw [List.lookup_eq_none_iff]
    intro b hb
    obtain ⟨y, hy, rfl⟩ := Option.map_eq_some_iff.mp (Option.mem_toList.mp hb)
    rw [bne_iff_ne]
    rintro rfl
    exact h.2 (Option.mem_toList.mpr hy)
  rw [List.lookup_append, hparams, Option.none_or, List.lookup_append, hown, Option.none_or]

/-- A call with another number of arguments than a function has parameters fails. -/
theorem callBy_closure_ne_ok
    {w : Watch} {spaces : List Namespace} {m id home : Nat} {own : Option String}
    {params : List String} {code : Code} {env : Env} {args : List Value}
    (h : params.length ≠ args.length) {st st' : State} {v : Value} :
  callBy w spaces m (.closure id home own params code env) args st ≠ .ok v st'
  := by
  cases m with
  | zero => exact throw_ne_ok
  | succ m =>
    rw [callBy.eq_def]
    dsimp only
    rw [if_neg h]
    exact throw_ne_ok

/-- Forcing a suspension is making the call that it aims at. -/
theorem callBy_suspension
    {ident : String → String} {ak : String} {I : Idiom ident ak} {k : String} {t : Tree}
    (ht : Fragment I (.tail k) t) (w : Watch) (spaces : List Namespace) (m id home : Nat)
    (env : Env) :
  callBy w spaces (m + 1) (.closure id home none [] (codeOf ident t) env) []
    = aim w.rule home (spaces[home]?.getD []) env (codeOf ident t)
      >>= fun target => callBy w spaces m target.1 target.2
  := by
  rw [callBy.eq_def]
  exact execBy_tail (callBy w spaces m) ht

section Calls

variable {S : Setting} {κ₀ : Evaluation.Value} {flags : Array Flag} {stack : List Nat}

/-- A continuation that is a function is called on a value. -/
theorem defers_cont
    {I : Idiom S.ident S.ak} {k s : String} {body : Tree} {env : Evaluation.Env} {env' : Env}
    {κ : Evaluation.Value} {κ' : Value} (hlive : stack ≠ []) (hk : I.cont k) (hs : I.data s)
    (hbody : Fragment I (.tail k) body) (henv : Matches S I env env')
    (hκ : env.lookup k = some κ) (hκ' : env'.lookup (S.ident k) = some κ')
    (h : Continues S κ₀ flags stack κ κ') (id id' : Nat) {v : Evaluation.Value} {v' : Value}
    (hv : Tracks S v v') :
  Defers S κ₀ flags stack (.closure id "fn" [s] body env) [v]
    (.closure id' S.home none [S.ident s] (.lambda [] (codeOf S.ident body)) env') [v']
  := by
  obtain ⟨hne, hne'⟩ := ne_cont hs hk
  have hmatches : Matches S I (Evaluation.bindings [s] [v] ++ env)
      (bindings ([s].map S.ident) [v'] ++ env') := by
    apply Matches.of_params _ (List.nodup_singleton s) (.cons hv .nil) rfl henv.ak henv.ak'
    · intro x hx _
      exact henv.agree hx
    · intro x hx
      cases List.mem_singleton.mp hx
      exact hs
  refine ⟨[s], Evaluation.bindings [s] [v] ++ env, body, .of_arrives rfl, fun n => rfl, ?_⟩
  intro st
  refine ⟨_, ?_, fun w m => callLogging_suspending w S.spaces m id' S.home none _ env' rfl st⟩
  apply Suspends.intro st.made hbody
  refine ⟨hlive, hk, hmatches, κ, κ', ?_, ?_, h⟩
  · have hskip : (Evaluation.bindings [s] [v]).lookup k = none := by
      apply Evaluation.lookup_bindings_of_notMem
      rw [List.mem_singleton]
      exact hne.symm
    rw [List.lookup_append, hskip, Option.none_or, hκ]
  · have hskip : (bindings [S.ident s] [v']).lookup (S.ident k) = none := by
      rw [bindings, List.zip_cons_cons, List.lookup_cons, beq_false_of_ne hne'.symm]
      rfl
    rw [List.lookup_append, hskip, Option.none_or]
    exact hκ'

/-- Functions that take different numbers of arguments refuse the call. -/
theorem refuses_closure
    {params : List String} {args : List Evaluation.Value} {params' : List String}
    {args' : List Value} (h : params.length ≠ args.length) (h' : params'.length ≠ args'.length)
    (id : Nat) (name : String) (body : Tree) (env : Evaluation.Env) (id' home : Nat)
    (own : Option String) (code : Code) (env' : Env) :
  Refuses (.closure id name params body env) args (.closure id' home own params' code env') args'
  := by
  constructor
  · intro n s v s'
    cases n with
    | zero => exact throw_ne_ok
    | succ n =>
      rw [Evaluation.callBy, if_neg h]
      exact throw_ne_ok
  · intro w spaces m st v st'
    exact callBy_closure_ne_ok h'

/-- In the body of a routine, behind its parameters, its names agree: it knows itself, and all else
is global. -/
theorem Setting.Suits.agree
    {r : Routine} {I : Idiom S.ident S.ak} (h : S.Suits r I) (hr : S.routines r) (id' : Nat)
    {env : Env} (henv : ∀ b ∈ env, b.1 = S.ident r.flag ∨ ∃ x ∈ r.params ++ [r.k], b.1 = S.ident x)
    {x : String} (hx : I.data x) (hmem : x ∉ r.params) :
  Agree S [] ((S.ident r.own, S.innerValue r id' env) :: env) x
  := by
  by_cases hown : x = r.own
  · left
    obtain ⟨id, hglobal⟩ := h.self
    refine ⟨r.value id, S.innerValue r id' env, ?_, ?_, .inner hr id id' henv⟩
    · rw [Evaluation.find, List.lookup_nil, Option.none_or, hown, hglobal]
    · rw [find, hown, List.lookup_cons_self, Option.some_or]
  · have hne : S.ident x ≠ S.ident r.own :=
      fun heq => hown (I.injective (.inl hx) (.inl h.own) heq)
    have hlookup : env.lookup (S.ident x) = none := by
      rw [List.lookup_eq_none_iff]
      intro b hb
      rw [bne_iff_ne]
      intro heq
      obtain hflag | ⟨y, hy, hident⟩ := henv b hb
      · exact h.flag (.inl hx) (hflag.symm.trans heq.symm)
      · rcases List.mem_append.mp hy with hy | hy
        · cases I.injective (.inl hx) (.inl (h.params hy)) (heq.trans hident)
          exact hmem hy
        · cases List.mem_singleton.mp hy
          exact (ne_cont hx h.k).2 (heq.trans hident)
    have hfind : find ((S.ident r.own, S.innerValue r id' env) :: env) S.space (S.ident x)
        = find [] S.space (S.ident x) := by
      rw [find, List.lookup_cons, beq_false_of_ne hne, hlookup, find, List.lookup_nil]
    unfold Agree
    rw [hfind]
    exact h.names hx hown

/-- The parameters of a routine are names of data, but for the last one, which is that of its
continuation. -/
theorem Setting.Suits.data_or_cont
    {r : Routine} {I : Idiom S.ident S.ak} (h : S.Suits r I) {x : String}
    (hx : x ∈ r.params ++ [r.k]) :
  I.data x ∨ I.cont x
  := by
  rcases List.mem_append.mp hx with hx | hx
  · exact .inl (h.params hx)
  · cases List.mem_singleton.mp hx
    exact .inr h.k

/-- The helper that hands on values is none of the parameters of a routine. -/
theorem Setting.Suits.ne_helper
    {r : Routine} {I : Idiom S.ident S.ak} (h : S.Suits r I) {x : String}
    (hx : x ∈ (r.params ++ [r.k]).map S.ident) :
  x ≠ S.ident S.ak
  := by
  obtain ⟨y, hy, rfl⟩ := List.mem_map.mp hx
  exact I.helper (h.data_or_cont hy)

/-- The helper that hands on values is not hidden in the body of a routine. -/
theorem Setting.Suits.lookup_helper
    {r : Routine} {I : Idiom S.ident S.ak} (h : S.Suits r I) (id' : Nat) {env : Env}
    (henv : ∀ b ∈ env, b.1 = S.ident r.flag ∨ ∃ x ∈ r.params ++ [r.k], b.1 = S.ident x) :
  ((S.ident r.own, S.innerValue r id' env) :: env).lookup (S.ident S.ak) = none
  := by
  rw [List.lookup_cons, beq_false_of_ne (I.helper (.inl h.own)).symm, List.lookup_eq_none_iff]
  intro b hb
  rw [bne_iff_ne]
  intro heq
  obtain hflag | ⟨y, hy, hident⟩ := henv b hb
  · exact h.flag_helper (hflag.symm.trans heq.symm)
  · exact h.ne_helper (List.mem_map_of_mem hy) (hident.symm.trans heq.symm)

/-- The body of a routine is run where its parameters stand for the arguments, its last parameter
for the continuation, and its own name for its inner function. -/
theorem Setting.Suits.continued
    {r : Routine} {I : Idiom S.ident S.ak} (h : S.Suits r I) (hr : S.routines r) (id' : Nat)
    {env : Env} (henv : ∀ b ∈ env, b.1 = S.ident r.flag ∨ ∃ x ∈ r.params ++ [r.k], b.1 = S.ident x)
    {args : List Evaluation.Value} {args' : List Value}
    (hargs : List.Forall₂ (Tracks S) args args') (hlength : r.params.length = args.length)
    {κ : Evaluation.Value} {κ' : Value} (hκ : Continues S κ₀ flags stack κ κ')
    (hlive : stack ≠ []) :
  Continued S κ₀ flags stack I r.k
    (Evaluation.bindings (r.params ++ [r.k]) (args ++ [κ]) ++ [])
    (bindings ((r.params ++ [r.k]).map S.ident) (args' ++ [κ'])
      ++ ((S.ident r.own, S.innerValue r id' env) :: env))
  := by
  apply Continued.of_params hlive (fun x => h.params) h.nodup h.k hargs hlength hκ
  · rfl
  · exact h.lookup_helper id' henv
  · intro x hx hmem
    exact h.agree hr id' henv hx hmem

/-- A call of a function with as many arguments as it has parameters is put off. -/
theorem defers_closure
    {I : Idiom S.ident S.ak} {params : List String} {k : String} {body : Tree}
    (hbody : Fragment I (.tail k) body) {env : Evaluation.Env} {env' : Env} {own : Option String}
    (id id' : Nat) (name : String) {args : List Evaluation.Value} {args' : List Value}
    {κ : Evaluation.Value} {κ' : Value} (hlength : params.length = args.length)
    (hlength' : params.length = args'.length)
    (h : Continued S κ₀ flags stack I k (Evaluation.bindings (params ++ [k]) (args ++ [κ]) ++ env)
      (bindings ((params ++ [k]).map S.ident) (args' ++ [κ'])
        ++ ((own.map fun x => (x, Value.closure id' S.home own ((params ++ [k]).map S.ident)
          (.lambda [] (codeOf S.ident body)) env')).toList ++ env'))) :
  Defers S κ₀ flags stack (.closure id name (params ++ [k]) body env) (args ++ [κ])
    (.closure id' S.home own ((params ++ [k]).map S.ident) (.lambda [] (codeOf S.ident body)) env')
    (args' ++ [κ'])
  := by
  have heval : (params ++ [k]).length = (args ++ [κ]).length := by
    rw [List.length_append, List.length_append, hlength]
    rfl
  have hmachine : ((params ++ [k]).map S.ident).length = (args' ++ [κ']).length := by
    rw [List.length_map, List.length_append, List.length_append, hlength']
    rfl
  refine ⟨params ++ [k], Evaluation.bindings (params ++ [k]) (args ++ [κ]) ++ env, body,
    .of_arrives heval, ?_, ?_⟩
  · intro n
    rw [Evaluation.callBy, if_pos heval]
  · intro st
    exact ⟨_, .intro _ hbody h,
      fun w m => callLogging_suspending w S.spaces m id' S.home own _ env' hmachine st⟩

/-- A call on data, with a continuation at the end: it is one of an entry, or it is put off, or it
is refused on both sides. -/
theorem Tracks.calls
    (hS : S.Fits) {f : Evaluation.Value} {f' : Value} (hf : Tracks S f f')
    {args : List Evaluation.Value} {args' : List Value}
    (hargs : List.Forall₂ (Tracks S) args args') {κ : Evaluation.Value} {κ' : Value}
    (hκ : Continues S κ₀ flags stack κ κ') (hlive : stack ≠ []) :
  (∃ r id id', S.routines r ∧ f = r.value id ∧ f' = S.entryValue r id')
    ∨ Defers S κ₀ flags stack f (args ++ [κ]) f' (args' ++ [κ'])
    ∨ Refuses f (args ++ [κ]) f' (args' ++ [κ'])
  := by
  have hlengths : ∀ {params : List String} {k : String}, params.length ≠ args.length →
      (params ++ [k]).length ≠ (args ++ [κ]).length
        ∧ ((params ++ [k]).map S.ident).length ≠ (args' ++ [κ']).length := by
    intro params k hne
    simp only [List.length_map, List.length_append, List.length_singleton, ← hargs.length_eq]
    omega
  cases hf with
  | number n =>
    right
    right
    constructor
    · intro n s v s'
      cases n <;> exact throw_ne_ok
    · intro w spaces m st v st'
      cases m <;> exact throw_ne_ok
  | @entry r hr id id' =>
    left
    exact ⟨r, id, id', hr, rfl, rfl⟩
  | @inner r hr id id' env henv =>
    right
    by_cases hlength : r.params.length = args.length
    · left
      obtain ⟨I, hI⟩ := hS.routine hr
      apply defers_closure hI.body id id' r.name hlength (hlength.trans hargs.length_eq)
      exact hI.continued hr id' henv hargs hlength hκ hlive
    · right
      obtain ⟨hne, hne'⟩ := hlengths hlength
      exact refuses_closure hne hne' _ _ _ _ _ _ _ _ _
  | @closure I id id' name params k body env env' hparams hk hnodup hbody hak hak' hbound hvalues =>
    right
    by_cases hlength : params.length = args.length
    · left
      have hmatches : Matches S I env env' := ⟨hak, hak', hbound, hvalues⟩
      apply defers_closure hbody id id' name hlength (hlength.trans hargs.length_eq)
      apply Continued.of_params hlive hparams hnodup hk hargs hlength hκ hak hak'
      intro x hx _
      exact hmatches.agree hx
    · right
      obtain ⟨hne, hne'⟩ := hlengths hlength
      exact refuses_closure hne hne' _ _ _ _ _ _ _ _ _

end Calls

/-! ### Flags -/

section Flags

variable {S : Setting} {κ₀ κ : Evaluation.Value} {κ' : Value} {flags flags' : Array Flag}
variable {stack : List Nat}

namespace Continues

/-- The flags that a continuation wraps exist and are unset. -/
theorem unset (h : Continues S κ₀ flags stack κ κ') {j : Nat} (hj : j ∈ stack) :
  ∃ k, flags[j]? = some ⟨k, false⟩
  := by
  induction h with
  | root => contradiction
  | flag hflag hstack h ih =>
    rcases List.mem_cons.mp hj with rfl | hj
    · exact ⟨_, hflag⟩
    · exact ih hj
  | closure hlive hk hs hbody henv hκ hκ' h ih => exact ih hj

/-- The flags that a continuation wraps come before any new one. -/
theorem lt_size (h : Continues S κ₀ flags stack κ κ') {j : Nat} (hj : j ∈ stack) :
  j < flags.size
  := by
  obtain ⟨k, hk⟩ := h.unset hj
  obtain ⟨hlt, -⟩ := Array.getElem?_eq_some_iff.mp hk
  exact hlt

/-- A continuation depends on no flags but those that it wraps. -/
theorem of_flags (h : Continues S κ₀ flags stack κ κ')
    (hflags : ∀ j ∈ stack, flags'[j]? = flags[j]?) :
  Continues S κ₀ flags' stack κ κ'
  := by
  induction h with
  | root => exact .root
  | flag hflag hstack h ih =>
    apply Continues.flag _ hstack
    · apply ih
      intro j hj
      exact hflags j (List.mem_cons_of_mem _ hj)
    · rw [hflags _ List.mem_cons_self, hflag]
  | closure hlive hk hs hbody henv hκ hκ' h ih =>
    exact .closure hlive hk hs hbody henv hκ hκ' (ih hflags)

/-- A new flag around a continuation is a continuation. -/
theorem push (h : Continues S κ₀ flags stack κ κ') :
  Continues S κ₀ (flags.push ⟨κ', false⟩) (flags.size :: stack) κ (.flag flags.size)
  := by
  have hnew : (flags.push ⟨κ', false⟩)[flags.size]? = some ⟨κ', false⟩ := Array.getElem?_push_size
  apply Continues.flag hnew
  · intro i hi
    exact h.lt_size hi
  · apply h.of_flags
    intro j hj
    rw [Array.getElem?_push_lt (h.lt_size hj), Array.getElem?_eq_getElem (h.lt_size hj)]

/-- The flags that a continuation wraps are no more than the numbers below them allow. -/
theorem length_le (h : Continues S κ₀ flags stack κ κ') {n : Nat} (hn : ∀ j ∈ stack, j < n) :
  stack.length ≤ n
  := by
  induction h generalizing n with
  | root => exact Nat.zero_le n
  | flag hflag hstack h ih => exact Nat.lt_of_le_of_lt (ih hstack) (hn _ List.mem_cons_self)
  | closure hlive hk hs hbody henv hκ hκ' h ih => exact ih hn

/-- Settling sets the flags that are wrapped directly, one inside the other, and comes to what the
last of them wraps. -/
theorem settle (h : Continues S κ₀ flags stack κ κ') {steps : Nat} (hsteps : stack.length ≤ steps) :
  ∃ before after flags₁ κ₁, stack = before ++ after
    ∧ Machine.settle steps flags κ' = (flags₁, κ₁) ∧ (∀ i, κ₁ ≠ .flag i)
    ∧ Continues S κ₀ flags₁ after κ κ₁ ∧ (∀ j ∈ before, ∃ k, flags₁[j]? = some ⟨k, true⟩)
    ∧ ∀ j ∉ before, flags₁[j]? = flags[j]?
  := by
  -- a step sets the first flag; what it wraps is a continuation among the flags as they are then
  induction steps generalizing flags stack κ' with
  | zero =>
    cases h with
    | root =>
      refine ⟨[], [], flags, _, rfl, rfl, ?_, .root, ?_, fun _ _ => rfl⟩
      · intro i hi
        contradiction
      · intro j hj
        contradiction
    | flag hflag hstack h => contradiction
    | closure hlive hk hs hbody henv hκ hκ' h =>
      exact absurd (List.length_eq_zero_iff.mp (Nat.le_zero.mp hsteps)) hlive
  | succ steps ih =>
    cases h with
    | root =>
      refine ⟨[], [], flags, _, rfl, rfl, ?_, .root, ?_, fun _ _ => rfl⟩
      · intro i hi
        contradiction
      · intro j hj
        contradiction
    | closure hlive hk hs hbody henv hκ hκ' h =>
      refine ⟨[], stack, flags, _, rfl, rfl, ?_, ?_, ?_, fun _ _ => rfl⟩
      · intro i hi
        contradiction
      · exact .closure hlive hk hs hbody henv hκ hκ' h
      · intro j hj
        contradiction
    | @flag j stack _ k hflag hstack h =>
      obtain ⟨hlt, -⟩ := Array.getElem?_eq_some_iff.mp hflag
      have hother : ∀ i ≠ j, (flags.setIfInBounds j ⟨k, true⟩)[i]? = flags[i]? :=
        fun i hne => Array.getElem?_setIfInBounds_ne hne.symm
      have hnext : Continues S κ₀ (flags.setIfInBounds j ⟨k, true⟩) stack κ k :=
        h.of_flags fun i hi => hother i (Nat.ne_of_lt (hstack i hi))
      obtain ⟨before, after, flags₁, κ₁, hsplit, hsettle, hκ₁, hcont, hset, hsame⟩ :=
        ih hnext (Nat.le_of_succ_le_succ hsteps)
      refine ⟨j :: before, after, flags₁, κ₁, ?_, ?_, hκ₁, hcont, ?_, ?_⟩
      · rw [hsplit, List.cons_append]
      · rw [Machine.settle, hflag]
        exact hsettle
      · intro i hi
        rcases List.mem_cons.mp hi with rfl | hi
        · have hmem : i ∉ before := by
            intro hmem
            rw [hsplit] at hstack
            exact Nat.lt_irrefl i (hstack i (List.mem_append_left _ hmem))
          rw [hsame i hmem, Array.getElem?_setIfInBounds_self_of_lt hlt]
          exact ⟨k, rfl⟩
        · exact hset i hi
      · intro i hi
        rw [List.mem_cons, not_or] at hi
        obtain ⟨hne, hmem⟩ := hi
        rw [hsame i hmem, hother i hne]

end Continues

end Flags

/-! ### Entries -/

/-- The bindings of the inner function of a routine: its flag, and what its parameters were at
first. -/
def Setting.innerEnv (S : Setting) (r : Routine) (args : List Value) (k : Value) (j : Nat) : Env :=
  (S.ident r.flag, .flag j) :: bindings ((r.params ++ [r.k]).map S.ident) (args ++ [k])

/-- The first suspension of a routine that is called on the arguments, with the flag `j` around the
continuation. -/
def Setting.launched (S : Setting) (r : Routine) (args : List Value) (k : Value) (j made : Nat) :
    Value :=
  .closure (made + 1) S.home none [] (codeOf S.ident r.body)
    (bindings ((r.params ++ [r.k]).map S.ident) (args ++ [.flag j])
      ++ ((S.ident r.own, S.innerValue r made (S.innerEnv r args k j)) :: S.innerEnv r args k j))

/-- The inner function of a routine has no names bound but its flag and its parameters. -/
theorem mem_innerEnv {S : Setting} {r : Routine} {args : List Value} {k : Value} {j : Nat}
    {b : String × Value} (hb : b ∈ S.innerEnv r args k j) :
  b.1 = S.ident r.flag ∨ ∃ x ∈ r.params ++ [r.k], b.1 = S.ident x
  := by
  rcases List.mem_cons.mp hb with rfl | hb
  · left
    rfl
  · right
    obtain ⟨x, hx, heq⟩ := List.mem_map.mp (List.of_mem_zip hb).1
    exact ⟨x, hx, heq.symm⟩

/-- Names are computed by looking them up. -/
theorem execAllBy_names
    {rule : Rule} {call : Value → List Value → Run Value} {home : Nat} {globals : Namespace}
    {env : Env} {names : List String} {args : List Value}
    (h : List.Forall₂ (fun x v => env.lookup x = some v) names args) (st : State) :
  execAllBy rule call home globals env (names.map .name) st = .ok args st
  := by
  induction h with
  | nil =>
    rw [List.map_nil, execAllBy]
    rfl
  | cons hx _ ih =>
    have hlookup : ∀ {x v}, env.lookup x = some v →
        execBy rule call home globals env (.name x) st = .ok v st := by
      intro x v hx
      rw [execBy]
      apply lookup_eq_ok.mpr
      rw [find, hx, Option.some_or]
      exact ⟨rfl, rfl⟩
    rw [List.map_cons, execAllBy, bind_of_ok (hlookup hx), bind_of_ok ih]
    rfl

/-- Once its inner function is defined, an entry calls it with the parameters and the flag, and
bounces on what that gives back. -/
theorem execLogging_launch
    {call : Value → List Value → Logging Value} {home : Nat} {globals : Namespace} {env : Env}
    {e : Entry} {bounce inner flag work : Value} {args : List Value} {st : State}
    {entered : List (List String)} {l : Logged}
    (hbounce : find env globals e.trampoline = some bounce)
    (hinner : find env globals e.inner = some inner)
    (hnames : List.Forall₂ (fun x v => env.lookup x = some v) (e.params ++ [e.flag])
      (args ++ [flag]))
    (hcall : call inner (args ++ [flag]) ⟨st, entered⟩ = .ok work l) :
  execLogging BinaryOp.apply call home globals env e.launch ⟨st, entered⟩
    = call bounce [work, flag] l
  := by
  have hname : ∀ {x v} (l : Logged), find env globals x = some v →
      execLogging BinaryOp.apply call home globals env (.name x) l = .ok v l := by
    intro x v l hx
    rw [execLogging]
    exact quietly_of_ok (lookup_eq_ok.mpr ⟨hx, rfl⟩) _
  have hargs : execAllLogging BinaryOp.apply call home globals env
      (e.params.map .name ++ [.name e.flag]) ⟨st, entered⟩ = .ok (args ++ [flag]) ⟨st, entered⟩ := by
    apply execAllLogging_of_noCall fun op v w u h => BinaryOp.apply_of_apart h
    rw [← execAllBy_names hnames st, List.map_append, List.map_singleton]
  have hflag : find env globals e.flag = some flag := by
    have hlast : (e.flag, flag) ∈ (e.params ++ [e.flag]).zip (args ++ [flag]) := by
      have hlength : e.params.length = args.length := by
        have hlength := hnames.length_eq
        rw [List.length_append, List.length_append] at hlength
        exact Nat.add_right_cancel hlength
      rw [List.zip_append hlength]
      exact List.mem_append_right _ List.mem_cons_self
    rw [find, (List.forall₂_iff_zip.mp hnames).2 hlast, Option.some_or]
  have hfirst : execLogging BinaryOp.apply call home globals env
      (.call (.name e.inner) (e.params.map .name ++ [.name e.flag])) ⟨st, entered⟩ = .ok work l := by
    rw [execLogging, bind_of_ok (hname _ hinner), bind_of_ok hargs, hcall]
  rw [Entry.launch, execLogging, bind_of_ok (hname _ hbounce), execAllLogging, execAllLogging,
    execAllLogging]
  simp only [bind_assoc, pure_bind]
  rw [bind_of_ok hfirst, bind_of_ok (hname _ hflag)]

/-- Distinct names are bound to the arguments they stand with. -/
theorem lookup_of_mem_zip {names : List String} (hnodup : names.Nodup) {args : List Value}
    {x : String} {v : Value} (h : (x, v) ∈ names.zip args) :
  (bindings names args).lookup x = some v
  := by
  induction names generalizing args with
  | nil => contradiction
  | cons y names ih =>
    cases args with
    | nil => contradiction
    | cons w args =>
      obtain ⟨hy, hnames⟩ := List.nodup_cons.mp hnodup
      rw [List.zip_cons_cons] at h
      rw [bindings, List.zip_cons_cons]
      rcases List.mem_cons.mp h with heq | hmem
      · cases heq
        exact List.lookup_cons_self
      · have hne : x ≠ y := by
          rintro rfl
          exact hy (List.of_mem_zip hmem).1
        rw [List.lookup_cons, beq_false_of_ne hne]
        exact ih hnames hmem

section Entries

variable {S : Setting} {r : Routine} {I : Idiom S.ident S.ak} {args : List Value} {k : Value}

/-- Once its inner function is defined, an entry finds its parameters and its flag. -/
theorem Setting.Suits.lookup_launch
    (h : S.Suits r I) (hlength : r.params.length = args.length) (j : Nat) (inner : Value) :
  List.Forall₂ (fun x v => ((S.ident r.own, inner) :: S.innerEnv r args k j).lookup x = some v)
    (r.params.map S.ident ++ [S.ident r.flag]) (args ++ [.flag j])
  := by
  have hown : S.ident r.flag ≠ S.ident r.own := h.flag (.inl h.own)
  have hlength' : (r.params.map S.ident).length = args.length := by
    rw [List.length_map, hlength]
  apply List.rel_append
  · rw [List.forall₂_iff_zip]
    refine ⟨hlength', ?_⟩
    intro x v hmem
    obtain ⟨y, hy, rfl⟩ := List.mem_map.mp (List.of_mem_zip hmem).1
    have hne : S.ident y ≠ S.ident r.own := by
      intro heq
      cases I.injective (.inl (h.params hy)) (.inl h.own) heq
      exact h.own_notParam hy
    have hnodup : (r.params.map S.ident).Nodup := by
      apply List.Nodup.map_on _ h.nodup
      intro y hy z hz heq
      exact I.injective (.inl (h.params hy)) (.inl (h.params hz)) heq
    rw [List.lookup_cons, beq_false_of_ne hne, Setting.innerEnv, List.lookup_cons,
      beq_false_of_ne (h.flag (.inl (h.params hy))).symm, List.map_append, bindings,
      List.zip_append hlength', List.lookup_append]
    have hlookup := lookup_of_mem_zip hnodup hmem
    rw [bindings] at hlookup
    rw [hlookup, Option.some_or]
  · apply List.Forall₂.cons _ .nil
    rw [List.lookup_cons, beq_false_of_ne hown, Setting.innerEnv, List.lookup_cons_self]

/-- The helper that hands on values is none of the names that the inner function of a routine binds. -/
theorem Setting.Suits.ne_helper_inner (h : S.Suits r I) {x : String}
    (hx : x ∈ (r.params ++ [r.k]).map S.ident ++ (some (S.ident r.own)).toList) :
  x ≠ S.ident S.ak
  := by
  rcases List.mem_append.mp hx with hx | hx
  · exact h.ne_helper hx
  · cases List.mem_singleton.mp hx
    exact I.helper (.inl h.own)

/-- The helper that hands on values is not hidden around the inner function of a routine. -/
theorem Setting.Suits.lookup_innerEnv (h : S.Suits r I) (j : Nat) :
  (S.innerEnv r args k j).lookup (S.ident S.ak) = none
  := by
  have hhelper := h.lookup_helper 0 fun b (hb : b ∈ S.innerEnv r args k j) => mem_innerEnv hb
  rw [List.lookup_cons, beq_false_of_ne (I.helper (.inl h.own)).symm] at hhelper
  exact hhelper

/-- The helper that bounces is not hidden in an entry. -/
theorem Setting.Suits.lookup_trampoline (h : S.Suits r I) (j : Nat) (inner : Value) :
  ((S.ident r.own, inner) :: S.innerEnv r args k j).lookup (S.ident S.trampoline) = none
  := by
  rw [List.lookup_cons, beq_false_of_ne (h.trampoline (.inl h.own)), List.lookup_eq_none_iff]
  intro b hb
  rw [bne_iff_ne]
  intro heq
  obtain hflag | ⟨y, hy, hident⟩ := mem_innerEnv hb
  · exact h.trampoline_flag (heq.trans hflag)
  · exact h.trampoline (h.data_or_cont hy) (heq.trans hident)

/-- The helper that makes flags is not hidden in an entry. -/
theorem Setting.Suits.lookup_makeFlag (h : S.Suits r I) :
  (bindings ((r.params ++ [r.k]).map S.ident) (args ++ [k])).lookup (S.ident S.makeFlag) = none
  := by
  rw [List.lookup_eq_none_iff]
  intro b hb
  rw [bne_iff_ne]
  intro heq
  obtain ⟨y, hy, hident⟩ := List.mem_map.mp (List.of_mem_zip hb).1
  exact h.makeFlag (h.data_or_cont hy) (heq.trans hident.symm)

/-- An entry wraps the continuation in a new flag, calls its inner function, and bounces on the first
suspension of its routine. -/
theorem enterLogging_eq
    (hS : S.Fits) (h : S.Suits r I) (hlength : r.params.length = args.length) (w : Watch) (m : Nat)
    (st : State) (entered : List (List String)) :
  enterLogging (callLogging w S.spaces (m + 1)) S.home S.space (S.entry r) args k ⟨st, entered⟩
    = callLogging w S.spaces (m + 1) (.helper .trampoline)
      [S.launched r args k st.flags.size st.made, .flag st.flags.size]
      ⟨⟨st.flags.push ⟨k, false⟩, st.made + 2⟩, entered ++ [(r.params ++ [r.k]).map S.ident]⟩
  := by
  have hparams : (S.entry r).params ++ [(S.entry r).k] = (r.params ++ [r.k]).map S.ident := by
    rw [List.map_append]
    rfl
  have hmake : lookup S.space (bindings ((S.entry r).params ++ [(S.entry r).k]) (args ++ [k]))
      (S.entry r).makeFlag st = .ok (.helper .makeFlag) st := by
    apply lookup_eq_ok.mpr
    refine ⟨?_, rfl⟩
    rw [hparams]
    exact (find_of_none h.lookup_makeFlag _).trans hS.makeFlag
  have hflag : callLogging w S.spaces (m + 1) (.helper .makeFlag) [k] ⟨st, entered⟩
      = .ok (.flag st.flags.size) ⟨⟨st.flags.push ⟨k, false⟩, st.made⟩, entered⟩ := rfl
  have hfresh : freshId ⟨st.flags.push ⟨k, false⟩, st.made⟩
      = .ok st.made ⟨st.flags.push ⟨k, false⟩, st.made + 1⟩ := rfl
  have hargs : ((r.params ++ [r.k]).map S.ident).length
      = (args ++ [Value.flag st.flags.size]).length := by
    rw [List.length_map, List.length_append, List.length_append, hlength]
    rfl
  unfold enterLogging
  rw [bind_of_ok (quietly_of_ok hmake _), bind_of_ok hflag, bind_of_ok (quietly_of_ok hfresh _),
    hparams]
  apply execLogging_launch (e := S.entry r)
  · exact (find_of_none (h.lookup_trampoline _ _) _).trans hS.trampoline
  · exact find_cons_self _ _ _ _
  · exact h.lookup_launch hlength _ _
  · exact callLogging_suspending w S.spaces m _ S.home _ _ _ hargs _ _

/-- An entry that is given a continuation enters its routine with it. -/
theorem callLogging_entry
    (hS : S.Fits) (h : S.Suits r I) (hlength : r.params.length = args.length) (w : Watch)
    (m id : Nat) (st : State) (entered : List (List String)) :
  callLogging w S.spaces (m + 2) (S.entryValue r id) (args ++ [k]) ⟨st, entered⟩
    = callLogging w S.spaces (m + 1) (.helper .trampoline)
      [S.launched r args k st.flags.size st.made, .flag st.flags.size]
      ⟨⟨st.flags.push ⟨k, false⟩, st.made + 2⟩, entered ++ [(r.params ++ [r.k]).map S.ident]⟩
  := by
  have hparams : (S.entry r).params.length = args.length := by
    rw [← hlength]
    exact List.length_map _
  rw [Setting.entryValue, callLogging.eq_def]
  dsimp only
  rw [List.length_append, hparams, List.length_singleton, if_neg (Nat.succ_ne_self _), if_pos rfl,
    List.dropLast_concat, List.getLast?_concat, Option.getD_some]
  exact enterLogging_eq hS h hlength w m st entered

/-- An entry that is given no continuation enters its routine with the identity. -/
theorem callLogging_entry_identity
    (hS : S.Fits) (h : S.Suits r I) (hlength : r.params.length = args.length) (w : Watch)
    (m id : Nat) (st : State) (entered : List (List String)) :
  callLogging w S.spaces (m + 2) (S.entryValue r id) args ⟨st, entered⟩
    = callLogging w S.spaces (m + 1) (.helper .trampoline)
      [S.launched r args (.helper .identity) st.flags.size st.made, .flag st.flags.size]
      ⟨⟨st.flags.push ⟨.helper .identity, false⟩, st.made + 2⟩,
        entered ++ [(r.params ++ [r.k]).map S.ident]⟩
  := by
  have hparams : (S.entry r).params.length = args.length := by
    rw [← hlength]
    exact List.length_map _
  rw [Setting.entryValue, callLogging.eq_def]
  dsimp only
  rw [hparams, if_pos rfl]
  exact enterLogging_eq hS h hlength w m st entered

/-- Without the log, an entry that is given a continuation enters its routine with it. -/
theorem callBy_entry
    (hS : S.Fits) (h : S.Suits r I) (hlength : r.params.length = args.length) (w : Watch)
    (m id : Nat) (st : State) :
  callBy w S.spaces (m + 2) (S.entryValue r id) (args ++ [k]) st
    = callBy w S.spaces (m + 1) (.helper .trampoline)
      [S.launched r args k st.flags.size st.made, .flag st.flags.size]
      ⟨st.flags.push ⟨k, false⟩, st.made + 2⟩
  := by
  exact (shows_callLogging w S.spaces (m + 2) _ _).eq_of_eq
    (shows_callLogging w S.spaces (m + 1) _ _) (callLogging_entry hS h hlength w m id st [])

/-- Without the log, an entry that is given no continuation enters its routine with the identity. -/
theorem callBy_entry_identity
    (hS : S.Fits) (h : S.Suits r I) (hlength : r.params.length = args.length) (w : Watch)
    (m id : Nat) (st : State) :
  callBy w S.spaces (m + 2) (S.entryValue r id) args st
    = callBy w S.spaces (m + 1) (.helper .trampoline)
      [S.launched r args (.helper .identity) st.flags.size st.made, .flag st.flags.size]
      ⟨st.flags.push ⟨.helper .identity, false⟩, st.made + 2⟩
  := by
  exact (shows_callLogging w S.spaces (m + 2) _ _).eq_of_eq
    (shows_callLogging w S.spaces (m + 1) _ _) (callLogging_entry_identity hS h hlength w m id st [])

/-- A call of an entry that has a value enters its routine, with the last argument for the
continuation or with the identity. -/
theorem callBy_entry_cases
    (hS : S.Fits) (h : S.Suits r I) {w : Watch} {m id : Nat} {st st' : State} {v : Value}
    (hv : callBy w S.spaces m (S.entryValue r id) args st = .ok v st') :
  ∃ m' args₁ k, m = m' + 2 ∧ r.params.length = args₁.length
    ∧ (args = args₁ ++ [k] ∨ args = args₁ ∧ k = .helper .identity)
    ∧ callBy w S.spaces (m' + 1) (.helper .trampoline)
      [S.launched r args₁ k st.flags.size st.made, .flag st.flags.size]
      ⟨st.flags.push ⟨k, false⟩, st.made + 2⟩ = .ok v st'
  := by
  have hparams : (S.entry r).params.length = r.params.length := List.length_map _
  have henter : ∀ {args k}, enter (callBy w S.spaces 0) S.home S.space (S.entry r) args k st
      ≠ .ok v st' := by
    intro args k hv
    obtain ⟨maker, st₁, -, hv⟩ := bind_eq_ok.mp hv
    obtain ⟨flag, st₂, hflag, -⟩ := bind_eq_ok.mp hv
    exact throw_ne_ok hflag
  match m with
  | 0 => exact absurd hv throw_ne_ok
  | 1 =>
    rw [Setting.entryValue, callBy.eq_def] at hv
    dsimp only at hv
    split at hv
    · exact absurd hv henter
    · split at hv
      · exact absurd hv henter
      · exact absurd hv throw_ne_ok
  | m + 2 =>
    by_cases hsame : args.length = r.params.length
    · rw [callBy_entry_identity hS h hsame.symm] at hv
      exact ⟨m, args, _, rfl, hsame.symm, .inr ⟨rfl, rfl⟩, hv⟩
    · by_cases hmore : args.length = r.params.length + 1
      · obtain ⟨args, k, rfl⟩ : ∃ args₁ k, args = args₁ ++ [k] := by
          have hne : args ≠ [] := by
            rintro rfl
            contradiction
          exact ⟨args.dropLast, args.getLast hne, (List.dropLast_append_getLast hne).symm⟩
        rw [List.length_append] at hmore
        have hlength : r.params.length = args.length := (Nat.add_right_cancel hmore).symm
        rw [callBy_entry hS h hlength] at hv
        exact ⟨m, args, k, rfl, hlength, .inl rfl, hv⟩
      · rw [Setting.entryValue, callBy.eq_def] at hv
        dsimp only at hv
        rw [hparams, if_neg hsame, if_neg hmore] at hv
        exact absurd hv throw_ne_ok

/-- The first suspension of a routine stands for its body. -/
theorem Setting.Suits.suspends
    {κ₀ κ : Evaluation.Value} {κ' : Value} {flags : Array Flag} {stack : List Nat}
    (h : S.Suits r I) (hr : S.routines r) {args : List Evaluation.Value} {args' : List Value}
    (hargs : List.Forall₂ (Tracks S) args args') (hlength : r.params.length = args.length)
    (hκ : Continues S κ₀ flags stack κ κ') (made : Nat) :
  Suspends S κ₀ (flags.push ⟨κ', false⟩) (flags.size :: stack)
    (Evaluation.bindings (r.params ++ [r.k]) (args ++ [κ]) ++ []) r.body
    (S.launched r args' κ' flags.size made)
  := by
  apply Suspends.intro _ h.body
  apply h.continued hr made _ hargs hlength hκ.push (List.cons_ne_nil _ _)
  intro b hb
  exact mem_innerEnv hb

end Entries

end Springboard.Machine
