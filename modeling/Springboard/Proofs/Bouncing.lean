import Springboard.Proofs.Activation

/-!
# Bouncing

Trampolines that run one inside the other: what the inner one gives back becomes the work of the
next. If evaluation of a converted program has a value, the machine comes to that value too, and
the trampolines that were started on the way all end. Each of them forces nothing but suspensions
as long as its flag is unset. And the machine enters the functions that evaluation enters, in the
same order, apart from the helper that hands on values, which it has built in, and from the
suspensions, which evaluation knows nothing of.
-/

namespace Springboard.Machine

/-- The watch that keeps functions apart and lets trampolines force nothing but suspensions. -/
def Watch.strict : Watch :=
  ⟨apart, Value.isSuspension⟩

/-- A watch that allows what the strict one allows. -/
structure Watch.Allows (w : Watch) : Prop where
  rule : ∀ op x y z, apart op x y = .ok z → w.rule op x y = .ok z
  forces : ∀ work, work.isSuspension → w.forces work

/-- The strict watch allows what it allows. -/
theorem Watch.strict_allows : Watch.strict.Allows :=
  ⟨fun _ _ _ _ h => h, fun _ h => h⟩

/-- The watch that allows everything allows what the strict one allows. -/
theorem Watch.usual_allows : Watch.usual.Allows :=
  ⟨fun _ _ _ _ h => BinaryOp.apply_of_apart h, fun _ _ => rfl⟩

/-! ### Calls that end -/

/-- A call that has a value with enough fuel. The list has the parameters of the functions that are
entered. -/
def Ends (w : Watch) (spaces : List Namespace) (f : Value) (args : List Value) (st : State)
    (entered : List (List String)) (v : Value) (st' : State) : Prop :=
  ∃ N, ∀ fuel ≥ N, ∀ before,
    callLogging w spaces fuel f args ⟨st, before⟩ = .ok v ⟨st', before ++ entered⟩

/-- Trampolines with the given flags, the innermost first, that start from some work and end. -/
def Unwinds (w : Watch) (spaces : List Namespace) :
    List Nat → Value → State → List (List String) → Value → State → Prop
  | [], work, st, entered, v, st' => entered = [] ∧ work = v ∧ st = st'
  | i :: stack, work, st, entered, v, st' =>
    ∃ entered₁ entered₂ next st₁, entered = entered₁ ++ entered₂
      ∧ Ends w spaces (.helper .trampoline) [work, .flag i] st entered₁ next st₁
      ∧ Unwinds w spaces stack next st₁ entered₂ v st'

/-- A call that ends, and so do the trampolines that it goes back to. -/
def Delivers (w : Watch) (spaces : List Namespace) (stack : List Nat) (f : Value) (args : List Value)
    (st : State) (entered : List (List String)) (v : Value) (st' : State) : Prop :=
  ∃ entered₁ entered₂ next st₁, entered = entered₁ ++ entered₂
    ∧ Ends w spaces f args st entered₁ next st₁ ∧ Unwinds w spaces stack next st₁ entered₂ v st'

section Trampolines

variable {w : Watch} {spaces : List Namespace} {f f₁ work next v : Value} {args args₁ : List Value}
variable {i : Nat} {stack : List Nat} {st st₁ st' : State} {entered entered₁ : List (List String)}

/-- Without the log, a call that ends is a call that has a value with enough fuel. -/
theorem Ends.exists_fuel (h : Ends w spaces f args st entered v st') :
  ∃ N, ∀ fuel ≥ N, callBy w spaces fuel f args st = .ok v st'
  := by
  obtain ⟨N, h⟩ := h
  use N
  intro fuel hfuel
  exact (shows_callLogging w spaces fuel f args).eq_ok (h fuel hfuel [])

/-- A call that gives back a value at once ends. -/
theorem Ends.of_ok
    (h : ∀ m before, callLogging w spaces (m + 1) f args ⟨st, before⟩
      = .ok v ⟨st', before ++ entered⟩) :
  Ends w spaces f args st entered v st'
  := by
  use 1
  intro fuel hfuel before
  obtain ⟨m, rfl⟩ := Nat.exists_eq_add_of_le' hfuel
  exact h m before

/-- A call that comes to another call after entering some functions ends where that call ends. -/
theorem Ends.step
    (hstep : ∀ m before, callLogging w spaces (m + 2) f args ⟨st, before⟩
      = callLogging w spaces (m + 1) f₁ args₁ ⟨st₁, before ++ entered₁⟩)
    (h : Ends w spaces f₁ args₁ st₁ entered v st') :
  Ends w spaces f args st (entered₁ ++ entered) v st'
  := by
  obtain ⟨N, h⟩ := h
  use N + 2
  intro fuel hfuel before
  obtain ⟨m, rfl⟩ := Nat.exists_eq_add_of_le' hfuel
  rw [← Nat.add_assoc, hstep, h (m + N + 1) (by omega), List.append_assoc]

/-- Trampolines go back to where the call goes back to that a call comes to. -/
theorem Delivers.step
    (hstep : ∀ m before, callLogging w spaces (m + 2) f args ⟨st, before⟩
      = callLogging w spaces (m + 1) f₁ args₁ ⟨st₁, before ++ entered₁⟩)
    (h : Delivers w spaces stack f₁ args₁ st₁ entered v st') :
  Delivers w spaces stack f args st (entered₁ ++ entered) v st'
  := by
  obtain ⟨entered₂, entered₃, next, st₂, rfl, hends, hunwinds⟩ := h
  exact ⟨_, _, next, st₂, (List.append_assoc _ _ _).symm, hends.step hstep, hunwinds⟩

/-- What a trampoline does in a step. -/
theorem callBy_trampoline (w : Watch) (m : Nat) :
  callBy w spaces (m + 1) (.helper .trampoline) [work, .flag i] st
    = if st.isDone i then .ok work st
      else if w.forces work then
        (callBy w spaces m work [] >>= fun next =>
          callBy w spaces m (.helper .trampoline) [next, .flag i]) st
      else fail .mismatch st
  := by
  have hdone : isDone i st = .ok (st.isDone i) st := rfl
  rw [callBy.eq_def]
  dsimp only
  rw [bind_of_ok hdone]
  split
  · rfl
  · split
    · rfl
    · rfl

/-- A trampoline whose flag is set gives back its work. -/
theorem ends_of_done (h : st.isDone i = true) :
  Ends w spaces (.helper .trampoline) [work, .flag i] st [] work st
  := by
  apply Ends.of_ok
  intro m before
  have hdone : isDone i st = .ok true st := by
    rw [← h]
    rfl
  rw [callLogging.eq_def, List.append_nil]
  dsimp only
  rw [bind_of_ok (quietly_of_ok hdone _)]
  rfl

/-- A trampoline whose flag is unset forces its work and goes on with what that gives. -/
theorem ends_of_force (hw : w.Allows) (h : st.isDone i = false) (hwork : work.isSuspension)
    (hforce : Ends w spaces work [] st entered₁ next st₁)
    (hrest : Ends w spaces (.helper .trampoline) [next, .flag i] st₁ entered v st') :
  Ends w spaces (.helper .trampoline) [work, .flag i] st (entered₁ ++ entered) v st'
  := by
  obtain ⟨N, hforce⟩ := hforce
  obtain ⟨N', hrest⟩ := hrest
  use max N N' + 1
  intro fuel hfuel before
  obtain ⟨m, rfl⟩ := Nat.exists_eq_add_of_le' hfuel
  have hdone : isDone i st = .ok false st := by
    rw [← h]
    rfl
  rw [← Nat.add_assoc, callLogging.eq_def]
  dsimp only
  rw [bind_of_ok (quietly_of_ok hdone _), if_neg Bool.false_ne_true, if_pos (hw.forces work hwork),
    bind_of_ok (hforce _ (by omega) _), hrest _ (by omega), List.append_assoc]

/-- A trampoline that ends has its flag set. -/
theorem isDone_of_trampoline
    {w : Watch} {m : Nat}
    (h : callBy w spaces m (.helper .trampoline) [work, .flag i] st = .ok v st') :
  st'.isDone i = true
  := by
  induction m generalizing work st with
  | zero => exact absurd h throw_ne_ok
  | succ m ih =>
    rw [callBy_trampoline] at h
    split at h
    · rename_i hdone
      cases h
      exact hdone
    · split at h
      · obtain ⟨next, st₁, -, hrest⟩ := bind_eq_ok.mp h
        exact ih hrest
      · exact absurd h throw_ne_ok

/-- Trampolines go on with what their work gives. -/
theorem Unwinds.of_force (hw : w.Allows) (h : st.isDone i = false) (hwork : work.isSuspension)
    (hforce : Delivers w spaces (i :: stack) work [] st entered v st') :
  Unwinds w spaces (i :: stack) work st entered v st'
  := by
  obtain ⟨entered₁, -, next, st₁, rfl, hforce, entered₂, entered₃, next', st₂, rfl, hends, hrest⟩ :=
    hforce
  exact ⟨_, _, next', st₂, (List.append_assoc _ _ _).symm, ends_of_force hw h hwork hforce hends,
    hrest⟩

/-- Trampolines whose flags are set pass their work on to those around them. -/
theorem Unwinds.of_done {before : List Nat} (h : ∀ j ∈ before, st.isDone j = true)
    (hrest : Unwinds w spaces stack work st entered v st') :
  Unwinds w spaces (before ++ stack) work st entered v st'
  := by
  induction before with
  | nil => exact hrest
  | cons j before ih =>
    refine ⟨[], entered, work, st, rfl, ends_of_done (h j List.mem_cons_self), ?_⟩
    apply ih
    intro i hi
    exact h i (List.mem_cons_of_mem _ hi)

end Trampolines

/-! ### From evaluation to the machine -/

/-- What the machine enters when evaluation enters the functions of the first list: the same ones,
but for the helper that hands on values, and suspensions where they are forced. -/
inductive Repeats (ident : String → String) : List (List String) → List (List String) → Prop
  | nil : Repeats ident [] []
  | helper {entered entered' : List (List String)} (h : Repeats ident entered entered') :
      Repeats ident (["f", "v"] :: entered) entered'
  | function {entered entered' : List (List String)} (params : List String)
      (h : Repeats ident entered entered') :
      Repeats ident (params :: entered) (params.map ident :: entered')
  | suspension {entered entered' : List (List String)} (h : Repeats ident entered entered') :
      Repeats ident entered ([] :: entered')

section Forth

variable {S : Setting} {κ₀ : Evaluation.Value} {w : Watch}

/-- The trampoline that forces a suspension has its flag unset. -/
theorem Suspends.unset
    {flags : Array Flag} {stack : List Nat} {env : Evaluation.Env} {t : Tree} {work : Value}
    {i : Nat} {st : State} (h : Suspends S κ₀ flags (i :: stack) env t work)
    (hst : HasFlags flags st) :
  st.isDone i = false
  := by
  cases h with
  | intro id ht h =>
    obtain ⟨κ, κ', -, -, hcont⟩ := h.cont
    obtain ⟨k, hk⟩ := hcont.unset List.mem_cons_self
    rw [State.isDone, hst, hk]

/-- A call that evaluation follows until `κ₀` is called on a value, and a call of the machine that
keeps step with it: it returns what stands for the value, and enters the same functions. -/
def KeepsStep (w : Watch) (S : Setting) (κ₀ : Evaluation.Value) (stack : List Nat)
    (target : Evaluation.Value × List Evaluation.Value) (target' : Value × List Value)
    (s : Evaluation.State) (st : State) (v : Evaluation.Value) (s' : Evaluation.State) : Prop :=
  ∃ entered entered' v' st', Evaluation.Passes target s entered (κ₀, [v]) s'
    ∧ Delivers w S.spaces stack target'.1 target'.2 st entered' v' st'
    ∧ Repeats S.ident entered entered' ∧ Tracks S v v'

/-- If evaluation of a call has a value with so much fuel, then the machine keeps step with it. -/
def EndsForth (w : Watch) (S : Setting) (κ₀ : Evaluation.Value) (n : Nat) : Prop :=
  ∀ flags stack target target' s st v s', stack ≠ [] → Targets S κ₀ flags stack target target' →
    Evaluation.Holds S.globals s → HasFlags flags st →
      Evaluation.callBy Evaluation.apart n target.1 target.2 s = .ok v s' →
        KeepsStep w S κ₀ stack target target' s st v s'

/-- Forcing a suspension makes the call that it aims at. -/
theorem callLogging_suspension
    (hw : w.Allows) {spaces : List Namespace} {home : Nat} {env : Env} {code : Code} {st st₁ : State}
    {target : Value × List Value}
    (h : aim apart home (spaces[home]?.getD []) env code st = .ok target st₁) (m id : Nat)
    (entered : List (List String)) :
  callLogging w spaces (m + 1) (.closure id home none [] code env) [] ⟨st, entered⟩
    = callLogging w spaces m target.1 target.2 ⟨st₁, entered ++ [[]]⟩
  := by
  rw [callLogging.eq_def]
  exact execLogging_of_aim hw.rule _ h

/-- If evaluation of a tail has a value, then the machine comes to that value from the suspension
that stands for it. -/
theorem unwinds_of_suspends
    (hw : w.Allows) (hS : S.Fits) {n : Nat} (hforth : EndsForth w S κ₀ n) {flags : Array Flag}
    {stack : List Nat} {env : Evaluation.Env} {t : Tree} {work : Value}
    (h : Suspends S κ₀ flags stack env t work) {s s' : Evaluation.State} {st : State}
    {v : Evaluation.Value} (hs : Evaluation.Holds S.globals s) (hst : HasFlags flags st)
    (hv : Evaluation.evalBy Evaluation.apart (Evaluation.callBy Evaluation.apart n) env t s
      = .ok v s') :
  ∃ entered entered' v' st', Evaluation.Arrives env t s entered (κ₀, [v]) s'
    ∧ Unwinds w S.spaces stack work st entered' v' st' ∧ Repeats S.ident entered entered'
    ∧ Tracks S v v'
  := by
  cases h with
  | @intro I k t env env' id ht h =>
    rw [Evaluation.evalBy_tail _ ht] at hv
    obtain ⟨target, s₁, htarget, hv⟩ := bind_eq_ok.mp hv
    obtain ⟨hs₁, target', st₁, htarget', htargets, hst₁⟩ :=
      (carried_aim hS.toHandsOn ht h).forth hs hst htarget
    obtain ⟨entered, entered', v', st', hpasses, hdelivers, hrepeats, hv'⟩ :=
      hforth flags stack target target' s₁ st₁ v s' h.live htargets hs₁ hst₁ hv
    refine ⟨entered, [] :: entered', v', st', ⟨target, s₁, htarget, hpasses⟩, ?_,
      .suspension hrepeats, hv'⟩
    -- the innermost trampoline forces the suspension, which makes the call that it aims at
    cases stack with
    | nil => exact absurd rfl h.live
    | cons i stack =>
      have hsuspends : Suspends S κ₀ flags (i :: stack) env t _ := .intro id ht h
      apply Unwinds.of_force hw (hsuspends.unset hst) rfl
      exact hdelivers.step fun m before => callLogging_suspension hw htarget' (m + 1) id before

/-- Handing a value to a continuation calls what settling comes to. -/
theorem callLogging_applyK
    {flags₁ : Array Flag} {κ κ₁ v : Value} {st : State}
    (h : settle st.flags.size st.flags κ = (flags₁, κ₁)) (w : Watch) (spaces : List Namespace)
    (m : Nat) (entered : List (List String)) :
  callLogging w spaces (m + 1) (.helper .applyK) [κ, v] ⟨st, entered⟩
    = callLogging w spaces m κ₁ [v] ⟨⟨flags₁, st.made⟩, entered⟩
  := by
  have hsettled : settled κ st = .ok κ₁ ⟨flags₁, st.made⟩ := by
    have hmodify : settled κ st = .ok (settle st.flags.size st.flags κ).2
        ⟨(settle st.flags.size st.flags κ).1, st.made⟩ := rfl
    rw [hmodify, h]
  rw [callLogging.eq_def]
  dsimp only
  rw [bind_of_ok (quietly_of_ok hsettled _)]

/-- Without the log, handing a value to a continuation calls what settling comes to. -/
theorem callBy_applyK
    {flags₁ : Array Flag} {κ κ₁ v : Value} {st : State}
    (h : settle st.flags.size st.flags κ = (flags₁, κ₁)) (w : Watch) (spaces : List Namespace)
    (m : Nat) :
  callBy w spaces (m + 1) (.helper .applyK) [κ, v] st
    = callBy w spaces m κ₁ [v] ⟨flags₁, st.made⟩
  := by
  exact (shows_callLogging w spaces (m + 1) _ _).eq_of_eq (shows_callLogging w spaces m _ _)
    (callLogging_applyK h w spaces m [])

/-- Evaluation hands a value to a continuation by calling it. -/
theorem callBy_handing (rule : Evaluation.Rule) (n id : Nat) (name : String)
    (κ v : Evaluation.Value) :
  Evaluation.callBy rule (n + 1) (.closure id name ["f", "v"] Evaluation.handing []) [κ, v]
    = Evaluation.callBy rule n κ [v]
  := by
  rfl

/-- Handing a value to a continuation enters the helper, and comes to what the continuation comes
to. -/
theorem passes_handing
    {κ v : Evaluation.Value} {target : Evaluation.Value × List Evaluation.Value}
    {s s' : Evaluation.State} {entered : List (List String)}
    (h : Evaluation.Passes (κ, [v]) s entered target s') (id : Nat) (name : String) :
  Evaluation.Passes (.closure id name ["f", "v"] Evaluation.handing [], [κ, v]) s
    (["f", "v"] :: entered) target s'
  := by
  exact .step rfl rfl h

/-- If evaluation of a call that is put off has a value, the machine comes to it. Trampolines whose
flags are set may stand between the call and those that force the suspension. -/
theorem Defers.keepsStep
    (hw : w.Allows) (hS : S.Fits) {n : Nat} (hforth : EndsForth w S κ₀ n) {flags : Array Flag}
    {before stack : List Nat} {f v : Evaluation.Value} {args : List Evaluation.Value} {f' : Value}
    {args' : List Value} (h : Defers S κ₀ flags stack f args f' args') {s s' : Evaluation.State}
    {st : State} (hs : Evaluation.Holds S.globals s) (hst : HasFlags flags st)
    (hdone : ∀ j ∈ before, st.isDone j = true)
    (hv : Evaluation.callBy Evaluation.apart (n + 1) f args s = .ok v s') :
  KeepsStep w S κ₀ (before ++ stack) (f, args) (f', args') s st v s'
  := by
  obtain ⟨params, env, t, hpasses, heval, hmachine⟩ := h
  obtain ⟨work, hsuspends, hwork⟩ := hmachine st
  have hst₁ : HasFlags flags ⟨st.flags, st.made + 1⟩ := hst
  rw [heval] at hv
  obtain ⟨entered, entered', v', st', harrives, hunwinds, hrepeats, hv'⟩ :=
    unwinds_of_suspends hw hS hforth hsuspends hs hst₁ hv
  exact ⟨_, _, v', st', hpasses harrives, ⟨[params.map S.ident], entered', work, _, rfl,
    .of_ok (hwork w), .of_done hdone hunwinds⟩, .function params hrepeats, hv'⟩

/-- If evaluation has a value when one is handed on, the machine comes to it. -/
theorem endsForth_handing
    (hw : w.Allows) (hS : S.Fits)
    (hκ₀ : ∀ n v s, Evaluation.callBy Evaluation.apart (n + 1) κ₀ [v] s = .ok v s)
    {n : Nat} (ih : ∀ m < n, EndsForth w S κ₀ m) {flags : Array Flag} {stack : List Nat}
    {κ v u : Evaluation.Value} {κ' v' : Value} (hκ : Continues S κ₀ flags stack κ κ')
    (hv : Tracks S v v') {s s' : Evaluation.State} {st : State}
    (hs : Evaluation.Holds S.globals s) (hst : HasFlags flags st)
    (hu : Evaluation.callBy Evaluation.apart n κ [v] s = .ok u s') :
  KeepsStep w S κ₀ stack (κ, [v]) (.helper .applyK, [κ', v']) s st u s'
  := by
  obtain ⟨before, after, flags₁, κ₁, rfl, hsettle, hκ₁, hcont, hset, -⟩ :=
    hκ.settle (hκ.length_le fun j hj => hκ.lt_size hj)
  rw [← hst] at hsettle
  have happly : ∀ m entered, callLogging w S.spaces (m + 2) (.helper .applyK) [κ', v'] ⟨st, entered⟩
      = callLogging w S.spaces (m + 1) κ₁ [v'] ⟨⟨flags₁, st.made⟩, entered ++ []⟩ := by
    intro m entered
    rw [callLogging_applyK hsettle w S.spaces (m + 1) entered, List.append_nil]
  have hdone : ∀ j ∈ before, (State.mk flags₁ st.made).isDone j = true := by
    intro j hj
    obtain ⟨k, hk⟩ := hset j hj
    rw [State.isDone, hk]
  cases n with
  | zero => exact absurd hu throw_ne_ok
  | succ n =>
    cases hcont with
    | root =>
      rw [hκ₀] at hu
      cases hu
      have hends : Ends w S.spaces (.helper .identity) [v'] ⟨flags₁, st.made⟩ [] v'
          ⟨flags₁, st.made⟩ := by
        apply Ends.of_ok
        intro m entered
        rw [List.append_nil]
        rfl
      refine ⟨[], [], v', ⟨flags₁, st.made⟩, .refl _ _, ?_, .nil, hv⟩
      exact Delivers.step happly ⟨[], [], v', _, rfl, hends, .of_done hdone ⟨rfl, rfl, rfl⟩⟩
    | flag hflag hstack h => exact absurd rfl (hκ₁ _)
    | closure hlive hk hs' hbody henv hlookup hlookup' h =>
      have hst₁ : HasFlags flags₁ ⟨flags₁, st.made⟩ := rfl
      obtain ⟨entered, entered', u', st', hpasses, hdelivers, hrepeats, hu'⟩ :=
        (defers_cont hlive hk hs' hbody henv hlookup hlookup' h _ _ hv).keepsStep hw hS
          (ih n (Nat.lt_succ_self n)) hs hst₁ hdone hu
      exact ⟨entered, entered', u', st', hpasses, hdelivers.step happly, hrepeats, hu'⟩

/-- If evaluation of a routine has a value, then the machine comes to that value from the suspension
that its entry launches, and so from the entry. -/
theorem endsForth_entry
    (hw : w.Allows) (hS : S.Fits) {n : Nat} (hforth : EndsForth w S κ₀ n) {r : Routine}
    (hr : S.routines r) {flags : Array Flag} {stack : List Nat} {κ v : Evaluation.Value} {κ' : Value}
    {args : List Evaluation.Value} {args' : List Value} (hargs : List.Forall₂ (Tracks S) args args')
    (hκ : Continues S κ₀ flags stack κ κ') {s s' : Evaluation.State} {id made : Nat}
    (hs : Evaluation.Holds S.globals s)
    (hv : Evaluation.callBy Evaluation.apart (n + 1) (r.value id) (args ++ [κ]) s = .ok v s') :
  r.params.length = args'.length ∧ ∃ entered entered' v' st',
    Evaluation.Passes (r.value id, args ++ [κ]) s ((r.params ++ [r.k]) :: entered) (κ₀, [v]) s'
      ∧ Delivers w S.spaces stack (.helper .trampoline)
        [S.launched r args' κ' flags.size made, .flag flags.size]
        ⟨flags.push ⟨κ', false⟩, made + 2⟩ entered' v' st'
      ∧ Repeats S.ident entered entered' ∧ Tracks S v v'
  := by
  obtain ⟨I, hI⟩ := hS.routine hr
  rw [Routine.value, Evaluation.callBy] at hv
  split at hv
  · rename_i hlength
    have hparams : r.params.length = args.length := by
      rw [List.length_append, List.length_append] at hlength
      exact Nat.add_right_cancel hlength
    have hst : HasFlags (flags.push ⟨κ', false⟩) ⟨flags.push ⟨κ', false⟩, made + 2⟩ := rfl
    obtain ⟨entered, entered', v', st', harrives, hunwinds, hrepeats, hv'⟩ :=
      unwinds_of_suspends hw hS hforth (hI.suspends hr hargs hparams hκ made) hs hst hv
    exact ⟨hparams.trans hargs.length_eq, entered, entered', v', st', .of_arrives hlength harrives,
      hunwinds, hrepeats, hv'⟩
  · exact absurd hv throw_ne_ok

/-- If evaluation of a call has a value, then the machine comes to that value. -/
theorem endsForth
    (hw : w.Allows) (hS : S.Fits)
    (hκ₀ : ∀ n v s, Evaluation.callBy Evaluation.apart (n + 1) κ₀ [v] s = .ok v s) (n : Nat) :
  EndsForth w S κ₀ n
  := by
  induction n using Nat.strongRecOn with
  | ind n ih =>
    intro flags stack target target' s st v s' hlive htargets hs hst hv
    cases n with
    | zero => exact absurd hv throw_ne_ok
    | succ n =>
      have hforth := ih n (Nat.lt_succ_self n)
      cases htargets with
      | handing hκ hv' =>
        rw [callBy_handing] at hv
        obtain ⟨entered, entered', u', st', hpasses, hdelivers, hrepeats, hu'⟩ :=
          endsForth_handing hw hS hκ₀ (fun m hm => ih m (Nat.lt_succ_of_lt hm)) hκ hv' hs hst hv
        exact ⟨_, entered', u', st', passes_handing hpasses _ _, hdelivers, .helper hrepeats, hu'⟩
      | @call f κ f' κ' args args' hf hargs hκ =>
        obtain ⟨r, id, id', hr, rfl, rfl⟩ | hdefers | ⟨hrefuses, -⟩ := hf.calls hS hargs hκ hlive
        · -- an entry starts a trampoline of its own, around its first suspension
          obtain ⟨hlength, entered, entered', v', st', hpasses, hdelivers, hrepeats, hv'⟩ :=
            endsForth_entry hw hS hforth hr hargs hκ hs hv
          obtain ⟨I, hI⟩ := hS.routine hr
          refine ⟨_, _, v', st', hpasses, ?_, .function _ hrepeats, hv'⟩
          rw [← hst] at hdelivers
          exact Delivers.step (callLogging_entry hS hI hlength w · id' st ·) hdelivers
        · exact hdefers.keepsStep hw hS hforth hs hst (List.forall_mem_nil _) hv
        · exact absurd hv (hrefuses (n + 1) s v s')

/-- If evaluation of a routine that is to hand its value to `κ₀` has a value, then its entry comes
to that value, enters the same functions, and sets the flag that it made. -/
theorem ends_entry
    (hw : w.Allows) (hS : S.Fits)
    (hκ₀ : ∀ n v s, Evaluation.callBy Evaluation.apart (n + 1) κ₀ [v] s = .ok v s) {r : Routine}
    (hr : S.routines r) {args : List Evaluation.Value} {args' : List Value}
    (hargs : List.Forall₂ (Tracks S) args args') {n id : Nat} {s s' : Evaluation.State}
    {v : Evaluation.Value} (hs : Evaluation.Holds S.globals s)
    (hv : Evaluation.callBy Evaluation.apart n (r.value id) (args ++ [κ₀]) s = .ok v s')
    (id' : Nat) (st : State) :
  ∃ entered entered' v' st', Evaluation.Passes (r.value id, args ++ [κ₀]) s entered (κ₀, [v]) s'
    ∧ Ends w S.spaces (S.entryValue r id') args' st entered' v' st'
    ∧ Repeats S.ident entered entered' ∧ Tracks S v v' ∧ st'.isDone st.flags.size = true
  := by
  cases n with
  | zero => exact absurd hv throw_ne_ok
  | succ n =>
    obtain ⟨hlength, entered, entered', v', st', hpasses, hdelivers, hrepeats, hv'⟩ :=
      endsForth_entry hw hS (endsForth hw hS hκ₀ n) hr hargs
        (.root : Continues S κ₀ st.flags _ _ _) hs hv
    obtain ⟨I, hI⟩ := hS.routine hr
    -- no trampolines stand around the one that the entry starts
    obtain ⟨entered', -, v', st', rfl, hends, rfl, rfl, rfl⟩ := hdelivers
    rw [List.append_nil] at hrepeats
    obtain ⟨N, hfuel⟩ := hends.exists_fuel
    refine ⟨_, _, v', st', hpasses, ?_, .function _ hrepeats, hv', ?_⟩
    · exact hends.step (callLogging_entry_identity hS hI hlength w · id' st ·)
    · exact isDone_of_trampoline (hfuel N (Nat.le_refl N))

end Forth

end Springboard.Machine
