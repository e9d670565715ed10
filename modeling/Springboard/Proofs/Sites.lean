import Springboard.Proofs.Evaluation

/-!
# Functions told by their places

Evaluation that keeps account of the functions of the source. A function is told by the path to the
node that it was made from, so that two nodes are different functions even if they look the same. The
account has the path of each function that was made, and the paths of the functions that were
entered, in order and with repetition. Without the account it is evaluation under a rule.
-/

namespace Springboard

/-- The way from a program down to a node: the number of the form, and then, at each step, the number
of the child. -/
abbrev Site := List Nat

namespace Evaluation

/-- The state of an evaluation that keeps account: the values of the global names, the paths of the
functions that were made, in the order of their identities, and the paths of those that were
entered. -/
structure Account where
  globals : List (String × Value)
  sites : List Site
  entered : List Site

/-- The state without the account. A new closure is numbered by the functions made before it. -/
def Account.state (a : Account) : State :=
  ⟨a.globals, a.sites.length⟩

/-- Every state is that of an account. -/
theorem Account.exists_state (s : State) : ∃ a : Account, a.state = s := by
  use ⟨s.globals, List.replicate s.made [], []⟩
  rw [Account.state, List.length_replicate]

/-- The account before anything was evaluated. -/
def Account.start : Account :=
  ⟨[], [], []⟩

/-- Evaluations that keep account. -/
abbrev Accounting := EStateM Stop Account

/-- A step that makes and enters no function. -/
def idly {α : Type} (x : Eval α) : Accounting α := fun a =>
  match x a.state with
  | .ok v s => .ok v { a with globals := s.globals }
  | .error e s => .error e { a with globals := s.globals }

/-- A new closure, made from the node at the end of a path. -/
def makeClosureAt (p : Site) (name : String) (params : List String) (body : Tree) (env : Env) :
    Accounting Value :=
  modifyGet fun a =>
    (.closure a.sites.length name params body env, { a with sites := a.sites ++ [p] })

/-- Puts down that a function is entered. The result is its path. -/
def enterAt (id : Nat) : Accounting Site :=
  modifyGet fun a =>
    (a.sites[id]?.getD [], { a with entered := a.entered ++ [a.sites[id]?.getD []] })

mutual

/-- The value of the tree at the end of a path; `call` says what calls of functions do. -/
def evalAt (rule : Rule) (call : Value → List Value → Accounting Value) (p : Site) (env : Env) :
    Tree → Accounting Value
  | .literal n => pure (.number n)
  | .var name => idly (lookup env name)
  | .operation op operands => do
    let values ← evalAllAt rule call p 0 env operands
    idly (attempt (op.evaluateBy rule values))
  | .conditional _ test conseq alt => do
    let decision ← evalAt rule call (p ++ [0]) env test
    if Operand.isTrue decision then evalAt rule call (p ++ [1]) env conseq
    else evalAt rule call (p ++ [2]) env alt
  | .abstraction params body => makeClosureAt p "fn" params body env
  | .definition name params body _ => do
    let closure ← makeClosureAt p name params body env
    idly (define name closure)
    pure closure
  | .application rator rands => do
    let function ← evalAt rule call (p ++ [0]) env rator
    let args ← evalAllAt rule call p 1 env rands
    call function args
  | t => throw (.failed (.malformed (.noRule .evaluation) none t))

/-- The values of some children of the node at the end of a path, from the left; `i` is the number
of the first. -/
def evalAllAt (rule : Rule) (call : Value → List Value → Accounting Value) (p : Site) (i : Nat)
    (env : Env) : List Tree → Accounting (List Value)
  | [] => pure []
  | t :: ts => do
    let first ← evalAt rule call (p ++ [i]) env t
    let rest ← evalAllAt rule call p (i + 1) env ts
    pure (first :: rest)

end

/-- The call of a function. Its body is the only child of its node. -/
def callAt (rule : Rule) : Nat → Value → List Value → Accounting Value
  | 0, _, _ => throw .outOfFuel
  | fuel + 1, .closure id name params body env, args =>
    if params.length = args.length then do
      let p ← enterAt id
      evalAt rule (callAt rule fuel) (p ++ [0]) (bindings params args ++ env) body
    else throw (.failed (.fault (.arity name params.length args.length)))
  | _ + 1, _, _ => throw (.failed (.fault .mismatch))

/-- The values of some forms at top level; `i` is the number of the first. -/
def evalSequenceAt (rule : Rule) (fuel i : Nat) : List Tree → Accounting (List Value)
  | [] => pure []
  | t :: ts => do
    let first ← evalAt rule (callAt rule fuel) [i] [] t
    let rest ← evalSequenceAt rule fuel (i + 1) ts
    pure (first :: rest)

/-- The value of the last form of a program. -/
def evaluateAt (rule : Rule) (fuel : Nat) (ts : List Tree) : Accounting Value := do
  let values ← evalSequenceAt rule fuel 0 ts
  pure (values.getLast?.getD .nothing)

/-! ### Without the account -/

/-- Without the account, a step that leaves the state alone is that step. -/
theorem shows_idly {α : Type} {x : Eval α}
    (hstill : ∀ s, (∃ v, x s = .ok v s) ∨ ∃ e, x s = .error e s) :
  Shows Account.state (idly x) x
  := by
  intro a
  unfold idly
  obtain ⟨v, h⟩ | ⟨e, h⟩ := hstill a.state
  · rw [h]
    rfl
  · rw [h]
    rfl

/-- Without the account, a name has its usual value. -/
theorem shows_lookup (env : Env) (x : String) :
  Shows Account.state (idly (lookup env x)) (lookup env x)
  := by
  have hget : ∀ s, (get : Eval State) s = .ok s s := fun s => rfl
  apply shows_idly
  intro s
  unfold lookup
  cases hlocal : env.lookup x with
  | some v => exact .inl ⟨v, rfl⟩
  | none =>
    dsimp only
    rw [bind_of_ok (hget s)]
    cases hglobal : s.globals.lookup x with
    | some v => exact .inl ⟨v, rfl⟩
    | none => exact .inr ⟨_, rfl⟩

/-- Without the account, an operation has its usual outcome. -/
theorem shows_attempt {α : Type} (x : Except Fault α) :
  Shows Account.state (idly (attempt x)) (attempt x)
  := by
  apply shows_idly
  intro s
  cases x with
  | ok v => exact .inl ⟨v, rfl⟩
  | error e => exact .inr ⟨_, rfl⟩

/-- Without the account, a global name is given its value as usual. -/
theorem shows_define (x : String) (v : Value) :
  Shows Account.state (idly (define x v)) (define x v)
  := by
  intro a
  rfl

/-- Without the account, a new closure is the usual one. -/
theorem shows_makeClosureAt (p : Site) (name : String) (params : List String) (body : Tree)
    (env : Env) :
  Shows Account.state (makeClosureAt p name params body env) (makeClosure name params body env)
  := by
  intro a
  have hstate : Account.state { a with sites := a.sites ++ [p] }
      = { a.state with made := a.state.made + 1 } := by
    rw [Account.state, List.length_append]
    rfl
  exact congrArg (EStateM.Result.ok _) hstate

section Evaluating

variable {rule : Rule} {call : Value → List Value → Accounting Value}
variable {call' : Value → List Value → Eval Value}

mutual

/-- Without the account, the value of a tree is the usual one. -/
theorem shows_evalAt (hcall : ∀ f args, Shows Account.state (call f args) (call' f args)) (p : Site)
    (env : Env) :
    ∀ t, Shows Account.state (evalAt rule call p env t) (evalBy rule call' env t)
  | .literal n => by
      rw [evalAt, evalBy]
      exact .pure _
  | .var name => by
      rw [evalAt, evalBy]
      exact shows_lookup env name
  | .operation op operands => by
      rw [evalAt, evalBy]
      apply (shows_evalAllAt hcall p 0 env operands).bind
      intro values
      exact shows_attempt _
  | .conditional _ test conseq alt => by
      rw [evalAt, evalBy]
      apply (shows_evalAt hcall (p ++ [0]) env test).bind
      intro decision
      split
      · exact shows_evalAt hcall (p ++ [1]) env conseq
      · exact shows_evalAt hcall (p ++ [2]) env alt
  | .abstraction params body => by
      rw [evalAt, evalBy]
      exact shows_makeClosureAt p "fn" params body env
  | .definition name params body _ => by
      rw [evalAt, evalBy]
      apply (shows_makeClosureAt p name params body env).bind
      intro closure
      exact (shows_define name closure).bind fun _ => .pure closure
  | .application rator rands => by
      rw [evalAt, evalBy]
      apply (shows_evalAt hcall (p ++ [0]) env rator).bind
      intro function
      exact (shows_evalAllAt hcall p 1 env rands).bind fun args => hcall function args
  | .blank | .continuation _ _ | .resumption _ _ | .entry _ _ _ _ _ | .program _ _ | .nothing
  | .number _ | .text _ | .list _ | .tuple _ => by
      simp only [evalAt, evalBy]
      exact .throw _

/-- Without the account, the values of some trees are the usual ones. -/
theorem shows_evalAllAt (hcall : ∀ f args, Shows Account.state (call f args) (call' f args))
    (p : Site) (i : Nat) (env : Env) :
    ∀ ts, Shows Account.state (evalAllAt rule call p i env ts) (evalAllBy rule call' env ts)
  | [] => by
      rw [evalAllAt, evalAllBy]
      exact .pure []
  | t :: ts => by
      rw [evalAllAt, evalAllBy]
      apply (shows_evalAt hcall (p ++ [i]) env t).bind
      intro first
      exact (shows_evalAllAt hcall p (i + 1) env ts).bind fun rest => .pure _

end

end Evaluating

/-- Without the account, a call is the usual one. -/
theorem shows_callAt (rule : Rule) (fuel : Nat) (f : Value) (args : List Value) :
  Shows Account.state (callAt rule fuel f args) (callBy rule fuel f args)
  := by
  induction fuel generalizing f args with
  | zero => exact .throw _
  | succ fuel ih =>
    cases f with
    | number n => exact .throw _
    | nothing => exact .throw _
    | closure id name params body env =>
      rw [callAt, callBy]
      split
      · intro a
        exact shows_evalAt ih _ _ body { a with entered := a.entered ++ [a.sites[id]?.getD []] }
      · exact .throw _

/-- Without the account, the values of forms at top level are the usual ones. -/
theorem shows_evalSequenceAt (rule : Rule) (fuel i : Nat) (ts : List Tree) :
  Shows Account.state (evalSequenceAt rule fuel i ts) (evalSequenceBy rule fuel ts)
  := by
  induction ts generalizing i with
  | nil => exact .pure []
  | cons t ts ih =>
    rw [evalSequenceAt, evalSequenceBy]
    apply (shows_evalAt (shows_callAt rule fuel) [i] [] t).bind
    intro first
    exact (ih (i + 1)).bind fun rest => .pure _

/-- Without the account, the value of a program is the usual one. -/
theorem shows_evaluateAt (rule : Rule) (fuel : Nat) (ts : List Tree) :
  Shows Account.state (evaluateAt rule fuel ts) (evaluateBy rule fuel ts)
  := by
  exact (shows_evalSequenceAt rule fuel 0 ts).bind fun values => .pure _

/-! ### Other rules and more fuel -/

section Approximating

variable {rule rule' : Rule} {call call' : Value → List Value → Accounting Value}

/-- An operator has the results of a rule that has fewer. -/
theorem approximates_operator (hrule : ∀ b x y z, rule b x y = .ok z → rule' b x y = .ok z)
    (op : Operator) (values : List Value) :
  Approximates (fun _ => True) (idly (attempt (op.evaluateBy rule values)))
    (idly (attempt (op.evaluateBy rule' values)))
  := by
  intro a
  cases h : op.evaluateBy rule values with
  | ok v =>
    right
    rw [Operator.evaluateBy_of_rule hrule h]
  | error e =>
    left
    exact ⟨_, a, trivial, rfl⟩

mutual

/-- The value of a tree is approximated when operators and calls are. -/
theorem approximates_evalAt (hrule : ∀ b x y z, rule b x y = .ok z → rule' b x y = .ok z)
    (hcall : ∀ f args, Approximates (fun _ => True) (call f args) (call' f args)) (p : Site)
    (env : Env) :
    ∀ t, Approximates (fun _ => True) (evalAt rule call p env t) (evalAt rule' call' p env t)
  | .literal _ | .var _ | .abstraction _ _ | .definition _ _ _ _ => by
      rw [evalAt, evalAt]
      apply Approximates.refl
  | .operation op operands => by
      rw [evalAt, evalAt]
      apply (approximates_evalAllAt hrule hcall p 0 env operands).bind
      exact approximates_operator hrule op
  | .conditional _ test conseq alt => by
      rw [evalAt, evalAt]
      apply (approximates_evalAt hrule hcall (p ++ [0]) env test).bind
      intro decision
      split
      · exact approximates_evalAt hrule hcall (p ++ [1]) env conseq
      · exact approximates_evalAt hrule hcall (p ++ [2]) env alt
  | .application rator rands => by
      rw [evalAt, evalAt]
      apply (approximates_evalAt hrule hcall (p ++ [0]) env rator).bind
      intro function
      exact (approximates_evalAllAt hrule hcall p 1 env rands).bind fun args => hcall function args
  | .blank | .continuation _ _ | .resumption _ _ | .entry _ _ _ _ _ | .program _ _ | .nothing
  | .number _ | .text _ | .list _ | .tuple _ => by
      simp only [evalAt]
      apply Approximates.refl

/-- The values of some trees are approximated when operators and calls are. -/
theorem approximates_evalAllAt (hrule : ∀ b x y z, rule b x y = .ok z → rule' b x y = .ok z)
    (hcall : ∀ f args, Approximates (fun _ => True) (call f args) (call' f args)) (p : Site)
    (i : Nat) (env : Env) :
    ∀ ts, Approximates (fun _ => True) (evalAllAt rule call p i env ts)
      (evalAllAt rule' call' p i env ts)
  | [] => by
      rw [evalAllAt, evalAllAt]
      apply Approximates.refl
  | t :: ts => by
      rw [evalAllAt, evalAllAt]
      apply (approximates_evalAt hrule hcall (p ++ [i]) env t).bind
      intro first
      apply (approximates_evalAllAt hrule hcall p (i + 1) env ts).bind
      intro rest
      apply Approximates.refl

end

end Approximating

/-- A call has the outcome that it has with less fuel and a rule that has fewer results. -/
theorem approximates_callAt
    {rule rule' : Rule} (hrule : ∀ b x y z, rule b x y = .ok z → rule' b x y = .ok z) {n m : Nat}
    (hnm : n ≤ m) (f : Value) (args : List Value) :
  Approximates (fun _ => True) (callAt rule n f args) (callAt rule' m f args)
  := by
  induction n generalizing m f args with
  | zero => exact .of_throw trivial _
  | succ n ih =>
    obtain ⟨m, rfl⟩ : ∃ m', m = m' + 1 := ⟨m - 1, by omega⟩
    cases f with
    | number n => apply Approximates.refl
    | nothing => apply Approximates.refl
    | closure id name params body env =>
      rw [callAt, callAt]
      split
      · apply (Approximates.refl _).bind
        intro p
        exact approximates_evalAt hrule (ih (by omega)) _ _ body
      · apply Approximates.refl

/-- A program that has a value has it with more fuel and a rule that has more results too, and the
account is the same. -/
theorem evaluateAt_of_rule
    {rule rule' : Rule} (hrule : ∀ b x y z, rule b x y = .ok z → rule' b x y = .ok z) {n m : Nat}
    (hnm : n ≤ m) {ts : List Tree} {a a' : Account} {v : Value}
    (h : evaluateAt rule n ts a = .ok v a') :
  evaluateAt rule' m ts a = .ok v a'
  := by
  have hsequence : ∀ ts i, Approximates (fun _ => True) (evalSequenceAt rule n i ts)
      (evalSequenceAt rule' m i ts) := by
    intro ts
    induction ts with
    | nil => exact fun i => .refl _
    | cons t ts ih =>
      intro i
      rw [evalSequenceAt, evalSequenceAt]
      apply (approximates_evalAt hrule (approximates_callAt hrule hnm) [i] [] t).bind
      intro first
      apply (ih (i + 1)).bind
      intro rest
      apply Approximates.refl
  have happroximates : Approximates (fun _ => True) (evaluateAt rule n ts) (evaluateAt rule' m ts) :=
    (hsequence ts 0).bind fun values => .refl _
  exact happroximates.eq_ok h

end Evaluation

end Springboard
