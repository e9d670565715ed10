import Springboard.Evaluation
import Springboard.Proofs.Outcome

/-!
# Evaluation that notes its visits

Evaluation with a record of what it does: each tree whose evaluation begins and each function that
is entered is noted, in order and with repetition. Without the record it is evaluation itself, and
more fuel does not change the outcome or the record of an evaluation that was not cut short.
-/

namespace Springboard.Evaluation

/-- What evaluation visits: a tree whose evaluation begins, or a function that is entered. -/
inductive Visit
  | tree (t : Tree)
  | function (name : String) (params : List String) (body : Tree)

/-- The state of an evaluation with what it has visited. -/
structure Noted where
  state : State
  visits : List Visit

/-- Evaluations that note what they visit. -/
abbrev Noting := EStateM Stop Noted

/-- The state with one more visit. -/
def Noted.visit (r : Noted) (visit : Visit) : Noted :=
  { r with visits := r.visits ++ [visit] }

/-- Notes a visit. -/
def note (visit : Visit) : Noting Unit :=
  modify fun r => r.visit visit

/-- A step that visits nothing. -/
def quietly {α : Type} (x : Eval α) : Noting α := fun r =>
  match x r.state with
  | .ok a s => .ok a { r with state := s }
  | .error e s => .error e { r with state := s }

mutual

/-- The value of a tree, with what is visited; `call` says what calls of functions do. -/
def evalNoting (call : Value → List Value → Noting Value) (env : Env) : Tree → Noting Value
  | .literal n => do
    note (.tree (.literal n))
    pure (.number n)
  | .var name => do
    note (.tree (.var name))
    quietly (lookup env name)
  | .operation op operands => do
    note (.tree (.operation op operands))
    let values ← evalAllNoting call env operands
    quietly (attempt (op.evaluate values))
  | .conditional sort test conseq alt => do
    note (.tree (.conditional sort test conseq alt))
    let decision ← evalNoting call env test
    if Operand.isTrue decision then evalNoting call env conseq else evalNoting call env alt
  | .abstraction params body => do
    note (.tree (.abstraction params body))
    quietly (makeClosure "fn" params body env)
  | .definition name params body own => do
    note (.tree (.definition name params body own))
    let closure ← quietly (makeClosure name params body env)
    quietly (define name closure)
    pure closure
  | .application rator rands => do
    note (.tree (.application rator rands))
    let function ← evalNoting call env rator
    let args ← evalAllNoting call env rands
    call function args
  | t => do
    note (.tree t)
    throw (.failed (.malformed (.noRule .evaluation) none t))

/-- The values of some trees, from the left, with what is visited. -/
def evalAllNoting (call : Value → List Value → Noting Value) (env : Env) :
    List Tree → Noting (List Value)
  | [] => pure []
  | t :: ts => do
    let first ← evalNoting call env t
    let rest ← evalAllNoting call env ts
    pure (first :: rest)

end

/-- The call of a function, with what is visited. -/
def callNoting : Nat → Value → List Value → Noting Value
  | 0, _, _ => throw .outOfFuel
  | fuel + 1, .closure _ name params body env, args =>
    if params.length = args.length then do
      note (.function name params body)
      evalNoting (callNoting fuel) (bindings params args ++ env) body
    else throw (.failed (.fault (.arity name params.length args.length)))
  | _ + 1, _, _ => throw (.failed (.fault .mismatch))

/-! ### Without the record -/

/-- The outcome of an evaluation without its record. -/
def unnoted {α : Type} : EStateM.Result Stop Noted α → EStateM.Result Stop State α
  | .ok a r => .ok a r.state
  | .error e r => .error e r.state

/-- Without its record, `x` is `y`. -/
def Erases {α : Type} (x : Noting α) (y : Eval α) : Prop :=
  ∀ r, unnoted (x r) = y r.state

section Erasure

variable {α β : Type}

/-- A value is noted nowhere. -/
theorem Erases.pure (a : α) : Erases (pure a) (pure a) := by
  intro r
  rfl

/-- A failure is noted nowhere. -/
theorem Erases.throw (e : Stop) : Erases (throw e : Noting α) (throw e) := by
  intro r
  rfl

/-- Without the record, a step that visits nothing is that step. -/
theorem erases_quietly (x : Eval α) : Erases (quietly x) x := by
  intro r
  unfold quietly
  cases x r.state with
  | ok a s => rfl
  | error e s => rfl

/-- The record of a sequence is taken away by taking away those of its parts. -/
theorem Erases.bind
    {x : Noting α} {y : Eval α} {f : α → Noting β} {g : α → Eval β}
    (hx : Erases x y) (hf : ∀ a, Erases (f a) (g a)) :
  Erases (x >>= f) (y >>= g)
  := by
  intro r
  have h := hx r
  cases hxr : x r with
  | ok a r₁ =>
    rw [hxr] at h
    rw [bind_of_ok hxr, bind_of_ok h.symm]
    exact hf a r₁
  | error e r₁ =>
    rw [hxr] at h
    rw [bind_of_error hxr, bind_of_error h.symm]
    rfl

/-- Without the record, notes are nothing. -/
theorem Erases.after_note {x : Noting α} {y : Eval α} (hx : Erases x y) (visit : Visit) :
  Erases (note visit >>= fun _ => x) y
  := by
  intro r
  exact hx (r.visit visit)

end Erasure

section Evaluating

variable {call : Value → List Value → Noting Value} {call' : Value → List Value → Eval Value}

mutual

/-- Without its record, the value of a tree is the usual one. -/
theorem erases_evalNoting (hcall : ∀ f args, Erases (call f args) (call' f args)) (env : Env) :
    ∀ t, Erases (evalNoting call env t) (evalWith call' env t)
  | .literal n => by
      rw [evalNoting, evalWith]
      exact (Erases.pure _).after_note _
  | .var name => by
      rw [evalNoting, evalWith]
      exact (erases_quietly _).after_note _
  | .operation op operands => by
      rw [evalNoting, evalWith]
      apply Erases.after_note
      exact (erases_evalAllNoting hcall env operands).bind fun values => erases_quietly _
  | .conditional _ test conseq alt => by
      rw [evalNoting, evalWith]
      apply Erases.after_note
      apply (erases_evalNoting hcall env test).bind
      intro decision
      split
      · exact erases_evalNoting hcall env conseq
      · exact erases_evalNoting hcall env alt
  | .abstraction params body => by
      rw [evalNoting, evalWith]
      exact (erases_quietly _).after_note _
  | .definition name params body _ => by
      rw [evalNoting, evalWith]
      apply Erases.after_note
      apply (erases_quietly _).bind
      intro closure
      exact (erases_quietly _).bind fun _ => .pure closure
  | .application rator rands => by
      rw [evalNoting, evalWith]
      apply Erases.after_note
      apply (erases_evalNoting hcall env rator).bind
      intro function
      exact (erases_evalAllNoting hcall env rands).bind fun args => hcall function args
  | .blank | .continuation _ _ | .resumption _ _ | .entry _ _ _ _ _ | .program _ _ | .nothing
  | .number _ | .text _ | .list _ | .tuple _ => by
      simp only [evalNoting, evalWith]
      exact (Erases.throw _).after_note _

/-- Without their record, the values of some trees are the usual ones. -/
theorem erases_evalAllNoting (hcall : ∀ f args, Erases (call f args) (call' f args)) (env : Env) :
    ∀ ts, Erases (evalAllNoting call env ts) (evalAll call' env ts)
  | [] => by
      rw [evalAllNoting, evalAll]
      exact .pure []
  | t :: ts => by
      rw [evalAllNoting, evalAll]
      apply (erases_evalNoting hcall env t).bind
      intro first
      exact (erases_evalAllNoting hcall env ts).bind fun rest => .pure _

end

end Evaluating

/-- Without its record, a call is the usual one. -/
theorem erases_callNoting (fuel : Nat) (f : Value) (args : List Value) :
  Erases (callNoting fuel f args) (Evaluation.call fuel f args)
  := by
  induction fuel generalizing f args with
  | zero => exact .throw _
  | succ fuel ih =>
    cases f with
    | number n => exact .throw _
    | nothing => exact .throw _
    | closure id name params body env =>
      rw [callNoting, Evaluation.call]
      split
      · exact (erases_evalNoting ih _ body).after_note _
      · exact .throw _

/-! ### More fuel -/

mutual

/-- The value of a tree is approximated when calls are. -/
theorem evalNoting_approximates
    {ignored : Stop → Prop} {call call' : Value → List Value → Noting Value}
    (hcall : ∀ f args, Approximates ignored (call f args) (call' f args)) (env : Env) :
    ∀ t, Approximates ignored (evalNoting call env t) (evalNoting call' env t)
  | .literal _ | .var _ | .abstraction _ _ | .definition _ _ _ _ => by
      rw [evalNoting, evalNoting]
      apply Approximates.refl
  | .operation op operands => by
      rw [evalNoting, evalNoting]
      apply (Approximates.refl _).bind
      intro _
      apply (evalAllNoting_approximates hcall env operands).bind
      intro values
      apply Approximates.refl
  | .conditional _ test conseq alt => by
      rw [evalNoting, evalNoting]
      apply (Approximates.refl _).bind
      intro _
      apply (evalNoting_approximates hcall env test).bind
      intro decision
      split
      · exact evalNoting_approximates hcall env conseq
      · exact evalNoting_approximates hcall env alt
  | .application rator rands => by
      rw [evalNoting, evalNoting]
      apply (Approximates.refl _).bind
      intro _
      apply (evalNoting_approximates hcall env rator).bind
      intro function
      exact (evalAllNoting_approximates hcall env rands).bind fun args => hcall function args
  | .blank | .continuation _ _ | .resumption _ _ | .entry _ _ _ _ _ | .program _ _ | .nothing
  | .number _ | .text _ | .list _ | .tuple _ => by
      simp only [evalNoting]
      apply Approximates.refl

/-- The values of some trees are approximated when calls are. -/
theorem evalAllNoting_approximates
    {ignored : Stop → Prop} {call call' : Value → List Value → Noting Value}
    (hcall : ∀ f args, Approximates ignored (call f args) (call' f args)) (env : Env) :
    ∀ ts, Approximates ignored (evalAllNoting call env ts) (evalAllNoting call' env ts)
  | [] => by
      rw [evalAllNoting, evalAllNoting]
      apply Approximates.refl
  | t :: ts => by
      rw [evalAllNoting, evalAllNoting]
      apply (evalNoting_approximates hcall env t).bind
      intro first
      apply (evalAllNoting_approximates hcall env ts).bind
      intro rest
      apply Approximates.refl

end

/-- More fuel does not change the outcome or the record of a call that was not cut short. -/
theorem callNoting_fuel {n m : Nat} (hnm : n ≤ m) (f : Value) (args : List Value) :
  Approximates OutOfFuel (callNoting n f args) (callNoting m f args)
  := by
  induction n generalizing m f args with
  | zero =>
    have hfuel : OutOfFuel .outOfFuel := rfl
    exact .of_throw hfuel _
  | succ n ih =>
    obtain ⟨m, rfl⟩ : ∃ m', m = m' + 1 := ⟨m - 1, by omega⟩
    cases f with
    | number n => apply Approximates.refl
    | nothing => apply Approximates.refl
    | closure id name params body env =>
      rw [callNoting, callNoting]
      split
      · apply (Approximates.refl _).bind
        intro _
        exact evalNoting_approximates (ih (by omega)) _ body
      · apply Approximates.refl

/-! ### Outcomes with enough fuel -/

/-- Computations bounded by fuel, of which more changes no outcome that was not cut short. -/
def Stable {α : Type} (x : Nat → Noting α) : Prop :=
  ∀ n m, n ≤ m → Approximates OutOfFuel (x n) (x m)

/-- With enough fuel the outcome is `o`, and it is not that the fuel ran out. -/
def Ends {α : Type} (x : Nat → Noting α) (r : Noted) (o : EStateM.Result Stop Noted α) : Prop :=
  (∃ fuel, x fuel r = o) ∧ ∀ r', o ≠ .error .outOfFuel r'

/-- The evaluation of a tree in an environment. -/
def evaluation (env : Env) (t : Tree) (fuel : Nat) : Noting Value :=
  evalNoting (callNoting fuel) env t

/-- More fuel does not change the outcome of a call that was not cut short. -/
theorem stable_callNoting (f : Value) (args : List Value) :
  Stable fun fuel => callNoting fuel f args
  := by
  intro n m hnm
  exact callNoting_fuel hnm f args

/-- More fuel does not change the outcome of an evaluation that was not cut short. -/
theorem stable_evaluation (env : Env) (t : Tree) : Stable (evaluation env t) := by
  intro n m hnm
  exact evalNoting_approximates (callNoting_fuel hnm) env t

section Ends

variable {α β : Type} {x : Nat → Noting α} {f : Nat → α → Noting β} {r : Noted}

/-- An outcome is kept with more fuel. -/
theorem Stable.eq_of_le (hx : Stable x) {n m : Nat} (hnm : n ≤ m)
    {o : EStateM.Result Stop Noted α} (h : x n r = o) (ho : ∀ r', o ≠ .error .outOfFuel r') :
  x m r = o
  := by
  obtain ⟨e, r', he, hn⟩ | hn := hx n m hnm r
  · rw [hn, show e = .outOfFuel from he] at h
    exact absurd h.symm (ho r')
  · rw [← hn, h]

/-- A sequence ends when its first part fails, or when its second part ends. -/
theorem ends_bind (hx : Stable x) (hf : ∀ a, Stable fun fuel => f fuel a)
    {o : EStateM.Result Stop Noted β} :
  Ends (fun fuel => x fuel >>= f fuel) r o ↔
    (∃ e r₁, Ends x r (.error e r₁) ∧ o = .error e r₁)
      ∨ ∃ a r₁, Ends x r (.ok a r₁) ∧ Ends (fun fuel => f fuel a) r₁ o
  := by
  constructor
  · rintro ⟨⟨fuel, h⟩, ho⟩
    replace h : (x fuel >>= f fuel) r = o := h
    cases hfirst : x fuel r with
    | error e r₁ =>
      left
      rw [bind_of_error hfirst] at h
      refine ⟨e, r₁, ⟨⟨fuel, hfirst⟩, ?_⟩, h.symm⟩
      rintro r' ⟨⟩
      exact ho r₁ h.symm
    | ok a r₁ =>
      right
      rw [bind_of_ok hfirst] at h
      exact ⟨a, r₁, ⟨⟨fuel, hfirst⟩, fun r' => by simp⟩, ⟨fuel, h⟩, ho⟩
  · rintro (⟨e, r₁, ⟨⟨fuel, h⟩, he⟩, rfl⟩ | ⟨a, r₁, ⟨⟨n, hn⟩, ha⟩, ⟨m, hm⟩, ho⟩)
    · refine ⟨⟨fuel, bind_of_error h⟩, ?_⟩
      rintro r' ⟨⟩
      exact he r₁ rfl
    · -- the larger amount of fuel is enough for both parts
      refine ⟨⟨max n m, ?_⟩, ho⟩
      show (x (max n m) >>= f (max n m)) r = o
      rw [bind_of_ok (hx.eq_of_le (Nat.le_max_left n m) hn ha)]
      exact (hf a).eq_of_le (Nat.le_max_right n m) hm ho

/-- The call of a function with as many arguments as it takes ends as its body does. -/
theorem ends_callNoting {id : Nat} {name : String} {params : List String} {body : Tree} {env : Env}
    {args : List Value} (hlength : params.length = args.length)
    {o : EStateM.Result Stop Noted Value} :
  Ends (fun fuel => callNoting fuel (.closure id name params body env) args) r o ↔
    Ends (evaluation (bindings params args ++ env) body) (r.visit (.function name params body)) o
  := by
  have hstep : ∀ fuel, callNoting (fuel + 1) (.closure id name params body env) args r
      = evaluation (bindings params args ++ env) body fuel
          (r.visit (.function name params body)) := by
    intro fuel
    rw [callNoting, if_pos hlength]
    rfl
  constructor
  · rintro ⟨⟨fuel, h⟩, ho⟩
    cases fuel with
    | zero => exact absurd h.symm (ho r)
    | succ fuel => exact ⟨⟨fuel, (hstep fuel).symm.trans h⟩, ho⟩
  · rintro ⟨⟨fuel, h⟩, ho⟩
    exact ⟨⟨fuel + 1, (hstep fuel).trans h⟩, ho⟩

variable {env : Env} {o : EStateM.Result Stop Noted Value}

/-- A variable with a value ends in it. -/
theorem ends_var {name : String} {v : Value} (h : env.lookup name = some v) :
  Ends (evaluation env (.var name)) r o ↔ o = .ok v (r.visit (.tree (.var name)))
  := by
  have heval : ∀ fuel, evaluation env (.var name) fuel r
      = .ok v (r.visit (.tree (.var name))) := by
    intro fuel
    rw [evaluation, evalNoting, lookup, h]
    rfl
  constructor
  · rintro ⟨⟨fuel, ho⟩, -⟩
    rw [← ho, heval]
  · rintro rfl
    exact ⟨⟨0, heval 0⟩, fun r' => by simp⟩

/-- A conditional ends when its test fails, or as the part that the test selects. -/
theorem ends_conditional {sort : Conditional} {test conseq alt : Tree} :
  Ends (evaluation env (.conditional sort test conseq alt)) r o ↔
    (∃ e r₁, Ends (evaluation env test) (r.visit (.tree (.conditional sort test conseq alt)))
      (.error e r₁) ∧ o = .error e r₁)
    ∨ ∃ v r₁, Ends (evaluation env test) (r.visit (.tree (.conditional sort test conseq alt)))
      (.ok v r₁) ∧ Ends (evaluation env (if Operand.isTrue v then conseq else alt)) r₁ o
  := by
  have hstep : ∀ fuel, evaluation env (.conditional sort test conseq alt) fuel r
      = (evaluation env test fuel >>= fun v =>
          evaluation env (if Operand.isTrue v then conseq else alt) fuel)
          (r.visit (.tree (.conditional sort test conseq alt))) := by
    intro fuel
    have hparts : (fun v : Value => evaluation env (if Operand.isTrue v then conseq else alt) fuel)
        = fun v => if Operand.isTrue v then evalNoting (callNoting fuel) env conseq
            else evalNoting (callNoting fuel) env alt := by
      funext v
      split <;> rfl
    rw [hparts, evaluation, evalNoting]
    rfl
  have hsequence := ends_bind (r := r.visit (.tree (.conditional sort test conseq alt))) (o := o)
    (f := fun fuel v => evaluation env (if Operand.isTrue v then conseq else alt) fuel)
    (stable_evaluation env test) fun v => stable_evaluation env _
  rw [← hsequence, Ends, Ends]
  simp only [hstep]

/-- The state in which the operand of an applied function is evaluated: the application and the
function have been visited, and the function has been made. -/
def Noted.binding (r : Noted) (name : String) (body operand : Tree) : Noted :=
  ⟨{ r.state with made := r.state.made + 1 },
    r.visits ++ [.tree (.application (.abstraction [name] body) [operand]),
      .tree (.abstraction [name] body)]⟩

/-- A function that is applied on the spot ends when its operand fails, or as its body with the
operand's value for the parameter. -/
theorem ends_binding {name : String} {body operand : Tree} :
  Ends (evaluation env (.application (.abstraction [name] body) [operand])) r o ↔
    (∃ e r₁, Ends (evaluation env operand) (r.binding name body operand) (.error e r₁)
      ∧ o = .error e r₁)
    ∨ ∃ v r₁, Ends (evaluation env operand) (r.binding name body operand) (.ok v r₁)
      ∧ Ends (evaluation ((name, v) :: env) body) (r₁.visit (.function "fn" [name] body)) o
  := by
  have hstep : ∀ fuel, evaluation env (.application (.abstraction [name] body) [operand]) fuel r
      = (evaluation env operand fuel >>= fun v =>
          callNoting fuel (.closure r.state.made "fn" [name] body env) [v])
          (r.binding name body operand) := by
    intro fuel
    have hvisits : r.binding name body operand
        = ⟨{ r.state with made := r.state.made + 1 },
            ((r.visit (.tree (.application (.abstraction [name] body) [operand]))).visit
              (.tree (.abstraction [name] body))).visits⟩ := by
      simp only [Noted.binding, Noted.visit, List.append_assoc, List.cons_append, List.nil_append]
    rw [hvisits, evaluation, evalNoting, evalNoting]
    simp only [evalAllNoting, bind_assoc, pure_bind]
    rfl
  have hsequence := ends_bind (r := r.binding name body operand) (o := o)
    (f := fun fuel v => callNoting fuel (.closure r.state.made "fn" [name] body env) [v])
    (stable_evaluation env operand) fun v => stable_callNoting _ _
  have hcall : ∀ v r₁, Ends (fun fuel => callNoting fuel
      (.closure r.state.made "fn" [name] body env) [v]) r₁ o
      ↔ Ends (evaluation ((name, v) :: env) body) (r₁.visit (.function "fn" [name] body)) o := by
    intro v r₁
    exact ends_callNoting rfl
  simp only [← hcall]
  rw [← hsequence, Ends, Ends]
  simp only [hstep]

end Ends

/-- What was visited before an outcome. -/
def visited {α : Type} : EStateM.Result Stop Noted α → List Visit
  | .ok _ r => r.visits
  | .error _ r => r.visits

/-- An outcome with a record of visits. -/
def noted {α : Type} (visits : List Visit) :
    EStateM.Result Stop State α → EStateM.Result Stop Noted α
  | .ok a s => .ok a ⟨s, visits⟩
  | .error e s => .error e ⟨s, visits⟩

/-- The outcome is what it was before the record was added. -/
theorem unnoted_noted {α : Type} (visits : List Visit) (r : EStateM.Result Stop State α) :
  unnoted (noted visits r) = r
  := by
  cases r with
  | ok a s => rfl
  | error e s => rfl

/-- The visits are those that were added. -/
theorem visited_noted {α : Type} (visits : List Visit) (r : EStateM.Result Stop State α) :
  visited (noted visits r) = visits
  := by
  cases r with
  | ok a s => rfl
  | error e s => rfl

/-- From a state the evaluation of a tree has the given outcome, with enough fuel, and makes the
given visits on the way. -/
def Evaluates (env : Env) (s : State) (t : Tree) (r : EStateM.Result Stop State Value)
    (visits : List Visit) : Prop :=
  ∃ fuel, evalWith (call fuel) env t s = r ∧ (∀ s', r ≠ .error .outOfFuel s')
    ∧ visited (evaluation env t fuel ⟨s, []⟩) = visits

/-- The outcome and the visits are those of the evaluation that notes them. -/
theorem evaluates_iff {env : Env} {s : State} {t : Tree} {r : EStateM.Result Stop State Value}
    {visits : List Visit} :
  Evaluates env s t r visits ↔ Ends (evaluation env t) ⟨s, []⟩ (noted visits r)
  := by
  have hunnoted : ∀ fuel, unnoted (evaluation env t fuel ⟨s, []⟩)
      = evalWith (call fuel) env t s := by
    intro fuel
    exact erases_evalNoting (erases_callNoting fuel) env t ⟨s, []⟩
  have hcut : (∀ r', noted visits r ≠ .error .outOfFuel r')
      ↔ ∀ s', r ≠ .error .outOfFuel s' := by
    cases r with
    | ok v s₁ => simp [noted]
    | error e s₁ => simp [noted]
  have hparts : ∀ x : EStateM.Result Stop Noted Value,
      x = noted visits r ↔ unnoted x = r ∧ visited x = visits := by
    intro x
    constructor
    · rintro rfl
      exact ⟨unnoted_noted visits r, visited_noted visits r⟩
    · rintro ⟨rfl, rfl⟩
      cases x with
      | ok v r₁ => rfl
      | error e r₁ => rfl
  rw [Ends, hcut, Evaluates]
  simp only [hparts, hunnoted]
  constructor
  · rintro ⟨fuel, hr, hnot, hvisits⟩
    exact ⟨⟨fuel, hr, hvisits⟩, hnot⟩
  · rintro ⟨⟨fuel, hr, hvisits⟩, hnot⟩
    exact ⟨fuel, hr, hnot, hvisits⟩

end Springboard.Evaluation
