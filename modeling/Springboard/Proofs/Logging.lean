import Springboard.Proofs.Running

/-!
# Runs that log the functions they enter

Runs of the machine that put down the parameters of each function with a body that is entered, in
order and with repetition. An entry has no body of its own, but launches an inner function. Without
the log it is a run under a watch. What calls nothing logs nothing, so the code of a tail, which ends
in one call, logs what that call logs.
-/

namespace Springboard.Machine

/-- The state of a run, with the parameters of the functions that it has entered. -/
structure Logged where
  state : State
  entered : List (List String)

/-- Runs that log the functions they enter. -/
abbrev Logging := EStateM Stop Logged

/-- A step that enters no function. -/
def quietly {α : Type} (x : Run α) : Logging α := fun l =>
  match x l.state with
  | .ok a st => .ok a { l with state := st }
  | .error e st => .error e { l with state := st }

/-- Logs that a function is entered. -/
def log (params : List String) : Logging Unit :=
  modify fun l => { l with entered := l.entered ++ [params] }

mutual

/-- The value of an expression under a rule; `call` says what calls of functions do. -/
def execLogging (rule : Rule) (call : Value → List Value → Logging Value) (home : Nat)
    (globals : Namespace) (env : Env) : Code → Logging Value
  | .constant n => pure (.number n)
  | .name x => quietly (lookup globals env x)
  | .negate a => do
    let v ← execLogging rule call home globals env a
    quietly (attempt (Operand.negate v))
  | .deny a => do
    let v ← execLogging rule call home globals env a
    pure (Operand.ofBool (!Operand.isTrue v))
  | .binary op a b => do
    let v ← execLogging rule call home globals env a
    let w ← execLogging rule call home globals env b
    quietly (attempt (rule op v w))
  | .choose test conseq alt => do
    let decision ← execLogging rule call home globals env test
    if Operand.isTrue decision then execLogging rule call home globals env conseq
    else execLogging rule call home globals env alt
  | .lambda params body => do
    let id ← quietly freshId
    pure (.closure id home none params body env)
  | .call f args => do
    let function ← execLogging rule call home globals env f
    let values ← execAllLogging rule call home globals env args
    call function values

/-- The values of some expressions under a rule, from the left. -/
def execAllLogging (rule : Rule) (call : Value → List Value → Logging Value) (home : Nat)
    (globals : Namespace) (env : Env) : List Code → Logging (List Value)
  | [] => pure []
  | a :: rest => do
    let first ← execLogging rule call home globals env a
    let others ← execAllLogging rule call home globals env rest
    pure (first :: others)

end

/-- What an entry does with its arguments and a continuation. -/
def enterLogging (call : Value → List Value → Logging Value) (home : Nat) (globals : Namespace)
    (e : Entry) (args : List Value) (k : Value) : Logging Value := do
  let env := bindings (e.params ++ [e.k]) (args ++ [k])
  let maker ← quietly (lookup globals env e.makeFlag)
  let flag ← call maker [k]
  let env := (e.flag, flag) :: env
  let id ← quietly freshId
  let inner := Value.closure id home (some e.inner) e.innerParams e.innerBody env
  execLogging BinaryOp.apply call home globals ((e.inner, inner) :: env) e.launch

/-- The call of a function under a watch. What is not listed calls no function. -/
def callLogging (w : Watch) (spaces : List Namespace) : Nat → Value → List Value → Logging Value
  | 0, _, _ => throw .outOfFuel
  | fuel + 1, function, args =>
    match function, args with
    | .closure id home own params body env, args =>
      if params.length = args.length then do
        log params
        let self := (own.map fun x => (x, Value.closure id home own params body env)).toList
        execLogging w.rule (callLogging w spaces fuel) home (spaces[home]?.getD [])
          (bindings params args ++ self ++ env) body
      else quietly (fail .mismatch)
    | .entry _ home e identity, args =>
      let globals := spaces[home]?.getD []
      if args.length = e.params.length then
        enterLogging (callLogging w spaces fuel) home globals e args identity
      else if args.length = e.params.length + 1 then
        enterLogging (callLogging w spaces fuel) home globals e args.dropLast
          (args.getLast?.getD .nothing)
      else quietly (fail .mismatch)
    | .helper .applyK, [k, value] => do
      let k ← quietly (settled k)
      callLogging w spaces fuel k [value]
    | .helper .trampoline, [work, .flag index] => do
      if ← quietly (isDone index) then pure work
      else if w.forces work then
        let next ← callLogging w spaces fuel work []
        callLogging w spaces fuel (.helper .trampoline) [next, .flag index]
      else quietly (fail .mismatch)
    | .handing _ k value none, [] => callLogging w spaces fuel (.helper .applyK) [k, value]
    | .handing _ k value (some amount), [] => do
      let sum ← quietly (attempt (BinaryOp.add.apply value amount))
      callLogging w spaces fuel (.helper .applyK) [k, sum]
    | function, args => quietly (callBy w spaces (fuel + 1) function args)

/-! ### Without the log -/

/-- Without the log, a step that enters no function is that step. -/
theorem shows_quietly {α : Type} (x : Run α) : Shows Logged.state (quietly x) x := by
  intro l
  unfold quietly
  cases x l.state with
  | ok a st => rfl
  | error e st => rfl

section Executing

variable {call : Value → List Value → Logging Value} {call' : Value → List Value → Run Value}

mutual

/-- Without the log, the value of an expression is the usual one. -/
theorem shows_execLogging (hcall : ∀ f args, Shows Logged.state (call f args) (call' f args))
    (rule : Rule) (home : Nat) (globals : Namespace) (env : Env) :
    ∀ code, Shows Logged.state (execLogging rule call home globals env code)
      (execBy rule call' home globals env code)
  | .constant n => by
      rw [execLogging, execBy]
      exact .pure _
  | .name x => by
      rw [execLogging, execBy]
      exact shows_quietly _
  | .negate a => by
      rw [execLogging, execBy]
      exact (shows_execLogging hcall rule home globals env a).bind fun v => shows_quietly _
  | .deny a => by
      rw [execLogging, execBy]
      exact (shows_execLogging hcall rule home globals env a).bind fun v => .pure _
  | .binary op a b => by
      rw [execLogging, execBy]
      apply (shows_execLogging hcall rule home globals env a).bind
      intro v
      exact (shows_execLogging hcall rule home globals env b).bind fun w => shows_quietly _
  | .choose test conseq alt => by
      rw [execLogging, execBy]
      apply (shows_execLogging hcall rule home globals env test).bind
      intro decision
      split
      · exact shows_execLogging hcall rule home globals env conseq
      · exact shows_execLogging hcall rule home globals env alt
  | .lambda params body => by
      rw [execLogging, execBy]
      exact (shows_quietly _).bind fun id => .pure _
  | .call f args => by
      rw [execLogging, execBy]
      apply (shows_execLogging hcall rule home globals env f).bind
      intro function
      exact (shows_execAllLogging hcall rule home globals env args).bind fun values =>
        hcall function values

/-- Without the log, the values of some expressions are the usual ones. -/
theorem shows_execAllLogging (hcall : ∀ f args, Shows Logged.state (call f args) (call' f args))
    (rule : Rule) (home : Nat) (globals : Namespace) (env : Env) :
    ∀ codes, Shows Logged.state (execAllLogging rule call home globals env codes)
      (execAllBy rule call' home globals env codes)
  | [] => by
      rw [execAllLogging, execAllBy]
      exact .pure []
  | a :: rest => by
      rw [execAllLogging, execAllBy]
      apply (shows_execLogging hcall rule home globals env a).bind
      intro first
      exact (shows_execAllLogging hcall rule home globals env rest).bind fun others => .pure _

end

/-- Without the log, an entry does what it usually does. -/
theorem shows_enterLogging (hcall : ∀ f args, Shows Logged.state (call f args) (call' f args))
    (home : Nat) (globals : Namespace) (e : Entry) (args : List Value) (k : Value) :
  Shows Logged.state (enterLogging call home globals e args k) (enter call' home globals e args k)
  := by
  unfold enterLogging enter
  apply (shows_quietly _).bind
  intro maker
  apply (hcall maker [k]).bind
  intro flag
  apply (shows_quietly _).bind
  intro id
  rw [← execBy_apply]
  exact shows_execLogging hcall BinaryOp.apply home globals _ _

end Executing

/-- Without the log, a call is the usual one. -/
theorem shows_callLogging (w : Watch) (spaces : List Namespace) (fuel : Nat) (f : Value)
    (args : List Value) :
  Shows Logged.state (callLogging w spaces fuel f args) (callBy w spaces fuel f args)
  := by
  induction fuel generalizing f args with
  | zero => exact .throw _
  | succ fuel ih =>
    rw [callLogging.eq_def]
    dsimp only
    split
    · rw [callBy.eq_def]
      dsimp only
      split
      · intro l
        exact shows_execLogging ih w.rule _ _ _ _ { l with entered := l.entered ++ [_] }
      · exact shows_quietly _
    · rw [callBy.eq_def]
      dsimp only
      split
      · exact shows_enterLogging ih _ _ _ _ _
      · split
        · exact shows_enterLogging ih _ _ _ _ _
        · exact shows_quietly _
    · rw [callBy.eq_def]
      exact (shows_quietly _).bind fun k => ih k _
    · rw [callBy.eq_def]
      apply (shows_quietly _).bind
      intro done
      split
      · exact .pure _
      · split
        · exact (ih _ _).bind fun next => ih _ _
        · exact shows_quietly _
    · rw [callBy.eq_def]
      exact ih _ _
    · rw [callBy.eq_def]
      exact (shows_quietly _).bind fun sum => ih _ _
    · exact shows_quietly _

/-! ### What calls nothing -/

/-- Calls that are never made. -/
def noCall (_ : Value) (_ : List Value) : Run Value :=
  throw .outOfFuel

/-- What is called by the code of a tail, with which arguments. -/
def aim (rule : Rule) (home : Nat) (globals : Namespace) (env : Env) :
    Code → Run (Value × List Value)
  | .call f args => do
    let function ← execBy rule noCall home globals env f
    let values ← execAllBy rule noCall home globals env args
    pure (function, values)
  | .choose test conseq alt => do
    let decision ← execBy rule noCall home globals env test
    if Operand.isTrue decision then aim rule home globals env conseq
    else aim rule home globals env alt
  | _ => throw .outOfFuel

/-- A step that enters no function leaves the log alone. -/
theorem quietly_of_ok {α : Type} {x : Run α} {st st' : State} {a : α} (h : x st = .ok a st')
    (entered : List (List String)) :
  quietly x ⟨st, entered⟩ = .ok a ⟨st', entered⟩
  := by
  rw [quietly, h]

section Quiet

variable {rule : Rule} {home : Nat} {globals : Namespace} {env : Env} {entered : List (List String)}

mutual

/-- An expression that calls nothing and compares no functions has its value under every rule that
has the results of keeping functions apart, whatever calls do, and logs nothing. -/
theorem execLogging_of_noCall
    (hrule : ∀ op v w u, apart op v w = .ok u → rule op v w = .ok u)
    (call : Value → List Value → Logging Value) :
    ∀ {code : Code} {st st' : State} {v : Value},
      execBy apart noCall home globals env code st = .ok v st' →
        execLogging rule call home globals env code ⟨st, entered⟩ = .ok v ⟨st', entered⟩
  | .constant n, st, st', v, h => by
      rw [execBy] at h
      obtain ⟨rfl, rfl⟩ := pure_eq_ok.mp h
      rw [execLogging]
      rfl
  | .name x, st, st', v, h => by
      rw [execBy] at h
      rw [execLogging]
      exact quietly_of_ok h _
  | .negate a, st, st', v, h => by
      rw [execBy, bind_eq_ok] at h
      obtain ⟨u, st₁, hu, h⟩ := h
      rw [execLogging, bind_of_ok (execLogging_of_noCall hrule call hu)]
      exact quietly_of_ok h _
  | .deny a, st, st', v, h => by
      rw [execBy, bind_eq_ok] at h
      obtain ⟨u, st₁, hu, h⟩ := h
      obtain ⟨rfl, rfl⟩ := pure_eq_ok.mp h
      rw [execLogging, bind_of_ok (execLogging_of_noCall hrule call hu)]
      rfl
  | .binary op a b, st, st', v, h => by
      rw [execBy, bind_eq_ok] at h
      obtain ⟨u, st₁, hu, h⟩ := h
      obtain ⟨u', st₂, hu', h⟩ := bind_eq_ok.mp h
      rw [execLogging, bind_of_ok (execLogging_of_noCall hrule call hu), bind_of_ok (execLogging_of_noCall hrule call hu')]
      cases hop : apart op u u' with
      | ok z =>
        rw [hop] at h
        rw [hrule op u u' z hop]
        exact quietly_of_ok h _
      | error e =>
        rw [hop] at h
        exact absurd h throw_ne_ok
  | .choose test conseq alt, st, st', v, h => by
      rw [execBy, bind_eq_ok] at h
      obtain ⟨decision, st₁, hdecision, h⟩ := h
      rw [execLogging, bind_of_ok (execLogging_of_noCall hrule call hdecision)]
      split at h
      · rename_i htrue
        rw [if_pos htrue]
        exact execLogging_of_noCall hrule call h
      · rename_i hfalse
        rw [if_neg hfalse]
        exact execLogging_of_noCall hrule call h
  | .lambda params body, st, st', v, h => by
      rw [execBy, bind_eq_ok] at h
      obtain ⟨id, st₁, hid, h⟩ := h
      obtain ⟨rfl, rfl⟩ := pure_eq_ok.mp h
      rw [execLogging, bind_of_ok (quietly_of_ok hid _)]
      rfl
  | .call f args, st, st', v, h => by
      rw [execBy, bind_eq_ok] at h
      obtain ⟨function, st₁, -, h⟩ := h
      obtain ⟨values, st₂, -, h⟩ := bind_eq_ok.mp h
      exact absurd h throw_ne_ok

/-- Expressions that call nothing and compare no functions have their values and log nothing. -/
theorem execAllLogging_of_noCall
    (hrule : ∀ op v w u, apart op v w = .ok u → rule op v w = .ok u)
    (call : Value → List Value → Logging Value) :
    ∀ {codes : List Code} {st st' : State} {vs : List Value},
      execAllBy apart noCall home globals env codes st = .ok vs st' →
        execAllLogging rule call home globals env codes ⟨st, entered⟩ = .ok vs ⟨st', entered⟩
  | [], st, st', vs, h => by
      rw [execAllBy] at h
      obtain ⟨rfl, rfl⟩ := pure_eq_ok.mp h
      rw [execAllLogging]
      rfl
  | a :: rest, st, st', vs, h => by
      rw [execAllBy, bind_eq_ok] at h
      obtain ⟨first, st₁, hfirst, h⟩ := h
      obtain ⟨others, st₂, hothers, h⟩ := bind_eq_ok.mp h
      obtain ⟨rfl, rfl⟩ := pure_eq_ok.mp h
      rw [execAllLogging, bind_of_ok (execLogging_of_noCall hrule call hfirst),
        bind_of_ok (execAllLogging_of_noCall hrule call hothers)]
      rfl

end

/-- The code of a tail logs what the call logs that it aims at. -/
theorem execLogging_of_aim
    (hrule : ∀ op v w u, apart op v w = .ok u → rule op v w = .ok u)
    (call : Value → List Value → Logging Value) {st st' : State}
    {target : Value × List Value} :
    ∀ {code : Code}, aim apart home globals env code st = .ok target st' →
      execLogging rule call home globals env code ⟨st, entered⟩
        = call target.1 target.2 ⟨st', entered⟩
  | .call f args, h => by
      rw [aim, bind_eq_ok] at h
      obtain ⟨function, st₁, hfunction, h⟩ := h
      obtain ⟨values, st₂, hvalues, h⟩ := bind_eq_ok.mp h
      obtain ⟨rfl, rfl⟩ := pure_eq_ok.mp h
      rw [execLogging, bind_of_ok (execLogging_of_noCall hrule call hfunction),
        bind_of_ok (execAllLogging_of_noCall hrule call hvalues)]
  | .choose test conseq alt, h => by
      rw [aim, bind_eq_ok] at h
      obtain ⟨decision, st₁, hdecision, h⟩ := h
      rw [execLogging, bind_of_ok (execLogging_of_noCall hrule call hdecision)]
      split at h
      · rename_i htrue
        rw [if_pos htrue]
        exact execLogging_of_aim hrule call h
      · rename_i hfalse
        rw [if_neg hfalse]
        exact execLogging_of_aim hrule call h
  | .constant _, h | .name _, h | .negate _, h | .deny _, h | .binary _ _ _, h | .lambda _ _, h => by
      simp only [aim] at h
      exact absurd h throw_ne_ok

end Quiet

end Springboard.Machine
