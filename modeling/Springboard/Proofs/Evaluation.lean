import Springboard.Evaluation
import Springboard.Proofs.Comparison
import Springboard.Proofs.Outcome

/-!
# Evaluation under a rule

Evaluation with a rule for the binary operators as a parameter. Under the usual rule it is
evaluation itself. Under a rule that keeps functions apart it succeeds just when evaluation does
so without ever comparing two functions, since an evaluation that stops is never resumed. More
fuel does not change the outcome of an evaluation that was not cut short.
-/

namespace Springboard.Evaluation

/-- What binary operators compute. -/
abbrev Rule := BinaryOp → Value → Value → Except Fault Value

/-- Whether a value is a function. -/
def Value.isFunction : Value → Bool
  | closure _ _ _ _ _ => true
  | _ => false

/-- The rule that refuses to compare two functions. -/
def apart : Rule :=
  BinaryOp.apart Value.isFunction

mutual

/-- The value of a tree under a rule; `call` says what calls of functions do. -/
def evalBy (rule : Rule) (call : Value → List Value → Eval Value) (env : Env) :
    Tree → Eval Value
  | .literal n => pure (.number n)
  | .var name => lookup env name
  | .operation op operands => do
    let values ← evalAllBy rule call env operands
    attempt (op.evaluateBy rule values)
  | .conditional _ test conseq alt => do
    let decision ← evalBy rule call env test
    if Operand.isTrue decision then evalBy rule call env conseq else evalBy rule call env alt
  | .abstraction params body => makeClosure "fn" params body env
  | .definition name params body _ => do
    let closure ← makeClosure name params body env
    define name closure
    pure closure
  | .application rator rands => do
    let function ← evalBy rule call env rator
    let args ← evalAllBy rule call env rands
    call function args
  | t => throw (.failed (.malformed (.noRule .evaluation) none t))

/-- The values of some trees under a rule, from the left. -/
def evalAllBy (rule : Rule) (call : Value → List Value → Eval Value) (env : Env) :
    List Tree → Eval (List Value)
  | [] => pure []
  | t :: ts => do
    let first ← evalBy rule call env t
    let rest ← evalAllBy rule call env ts
    pure (first :: rest)

end

/-- The call of a function under a rule. -/
def callBy (rule : Rule) : Nat → Value → List Value → Eval Value
  | 0, _, _ => throw .outOfFuel
  | fuel + 1, .closure _ name params body env, args =>
    if params.length = args.length then
      evalBy rule (callBy rule fuel) (bindings params args ++ env) body
    else throw (.failed (.fault (.arity name params.length args.length)))
  | _ + 1, _, _ => throw (.failed (.fault .mismatch))

/-- The values of some trees at top level under a rule, one after the other. -/
def evalSequenceBy (rule : Rule) (fuel : Nat) : List Tree → Eval (List Value)
  | [] => pure []
  | t :: ts => do
    let first ← evalBy rule (callBy rule fuel) [] t
    let rest ← evalSequenceBy rule fuel ts
    pure (first :: rest)

/-- The value of the last of some trees at top level under a rule. -/
def evaluateBy (rule : Rule) (fuel : Nat) (ts : List Tree) : Eval Value := do
  let values ← evalSequenceBy rule fuel ts
  pure (values.getLast?.getD .nothing)

/-! ### The usual rule -/

mutual

/-- Under the usual rule the value of a tree is the usual one. -/
theorem evalBy_apply (call : Value → List Value → Eval Value) (env : Env) :
    ∀ t, evalBy BinaryOp.apply call env t = evalWith call env t
  | .literal _ | .var _ | .abstraction _ _ | .definition _ _ _ _ => by
      rw [evalBy, evalWith]
  | .operation op operands => by
      rw [evalBy, evalWith, evalAllBy_apply call env operands, Operator.evaluateBy_apply]
  | .conditional _ test conseq alt => by
      rw [evalBy, evalWith, evalBy_apply call env test, evalBy_apply call env conseq,
        evalBy_apply call env alt]
  | .application rator rands => by
      rw [evalBy, evalWith, evalBy_apply call env rator, evalAllBy_apply call env rands]
  | .blank | .continuation _ _ | .resumption _ _ | .entry _ _ _ _ _ | .program _ _ | .nothing
  | .number _ | .text _ | .list _ | .tuple _ => by
      simp only [evalBy, evalWith]

/-- Under the usual rule the values of some trees are the usual ones. -/
theorem evalAllBy_apply (call : Value → List Value → Eval Value) (env : Env) :
    ∀ ts, evalAllBy BinaryOp.apply call env ts = evalAll call env ts
  | [] => by
      rw [evalAllBy, evalAll]
  | t :: ts => by
      rw [evalAllBy, evalAll, evalBy_apply call env t, evalAllBy_apply call env ts]

end

/-- Under the usual rule calls are the usual ones. -/
theorem callBy_apply (fuel : Nat) : callBy BinaryOp.apply fuel = call fuel := by
  induction fuel with
  | zero => rfl
  | succ fuel ih =>
    funext f args
    cases f with
    | closure id name params body env => rw [callBy, call, ih, evalBy_apply]
    | number n => rfl
    | nothing => rfl

/-- Under the usual rule evaluation at top level is the usual one. -/
theorem evaluateBy_apply (fuel : Nat) (ts : List Tree) :
  evaluateBy BinaryOp.apply fuel ts = evaluate fuel ts
  := by
  have hsequence : evalSequenceBy BinaryOp.apply fuel ts = evalSequence fuel ts := by
    induction ts with
    | nil => rfl
    | cons t ts ih => rw [evalSequenceBy, evalSequence, ih, evalBy_apply, callBy_apply, eval]
  rw [evaluateBy, evaluate, hsequence]

/-! ### Other rules and more fuel -/

/-- Under every operator `rule` has the results of `rule'`, or stops for a reason that is
ignored. -/
def Rule.Approximates (ignored : Stop → Prop) (rule rule' : Rule) : Prop :=
  ∀ (op : Operator) (values : List Value),
    Springboard.Approximates ignored (attempt (op.evaluateBy rule values))
      (attempt (op.evaluateBy rule' values))

/-- Every rule approximates itself. -/
theorem Rule.Approximates.refl (ignored : Stop → Prop) (rule : Rule) :
  rule.Approximates ignored rule
  := by
  intro op values
  apply Springboard.Approximates.refl

/-- A rule with fewer results approximates another, if it is ignored that it stops. -/
theorem Rule.Approximates.of_results
    {rule rule' : Rule} (hrule : ∀ b x y z, rule b x y = .ok z → rule' b x y = .ok z) :
  rule.Approximates (fun _ => True) rule'
  := by
  intro op values
  cases h : op.evaluateBy rule values with
  | error e => exact .of_throw trivial _
  | ok v =>
    rw [Operator.evaluateBy_of_rule hrule h]
    apply Springboard.Approximates.refl

mutual

/-- The value of a tree is approximated when operators and calls are. -/
theorem evalBy_approximates
    {ignored : Stop → Prop} {rule rule' : Rule} (hrule : rule.Approximates ignored rule')
    {call call' : Value → List Value → Eval Value}
    (hcall : ∀ f args, Approximates ignored (call f args) (call' f args)) (env : Env) :
    ∀ t, Approximates ignored (evalBy rule call env t) (evalBy rule' call' env t)
  | .literal _ | .var _ | .abstraction _ _ | .definition _ _ _ _ => by
      rw [evalBy, evalBy]
      apply Approximates.refl
  | .operation op operands => by
      rw [evalBy, evalBy]
      apply (evalAllBy_approximates hrule hcall env operands).bind
      apply hrule
  | .conditional _ test conseq alt => by
      rw [evalBy, evalBy]
      apply (evalBy_approximates hrule hcall env test).bind
      intro decision
      split
      · apply evalBy_approximates hrule hcall env conseq
      · apply evalBy_approximates hrule hcall env alt
  | .application rator rands => by
      rw [evalBy, evalBy]
      apply (evalBy_approximates hrule hcall env rator).bind
      intro function
      apply (evalAllBy_approximates hrule hcall env rands).bind
      apply hcall
  | .blank | .continuation _ _ | .resumption _ _ | .entry _ _ _ _ _ | .program _ _ | .nothing
  | .number _ | .text _ | .list _ | .tuple _ => by
      simp only [evalBy]
      apply Approximates.refl

/-- The values of some trees are approximated when operators and calls are. -/
theorem evalAllBy_approximates
    {ignored : Stop → Prop} {rule rule' : Rule} (hrule : rule.Approximates ignored rule')
    {call call' : Value → List Value → Eval Value}
    (hcall : ∀ f args, Approximates ignored (call f args) (call' f args)) (env : Env) :
    ∀ ts, Approximates ignored (evalAllBy rule call env ts) (evalAllBy rule' call' env ts)
  | [] => by
      rw [evalAllBy, evalAllBy]
      apply Approximates.refl
  | t :: ts => by
      rw [evalAllBy, evalAllBy]
      apply (evalBy_approximates hrule hcall env t).bind
      intro first
      apply (evalAllBy_approximates hrule hcall env ts).bind
      intro rest
      apply Approximates.refl

end

/-- A call is approximated by one with less fuel and a rule that approximates its own. -/
theorem callBy_approximates
    {ignored : Stop → Prop} {rule rule' : Rule} (hfuel : ignored .outOfFuel)
    (hrule : rule.Approximates ignored rule')
    {n m : Nat} (hnm : n ≤ m) (f : Value) (args : List Value) :
  Approximates ignored (callBy rule n f args) (callBy rule' m f args)
  := by
  induction n generalizing m f args with
  | zero => exact .of_throw hfuel _
  | succ n ih =>
    obtain ⟨m, rfl⟩ : ∃ m', m = m' + 1 := ⟨m - 1, by omega⟩
    cases f with
    | number n => apply Approximates.refl
    | nothing => apply Approximates.refl
    | closure id name params body env =>
      rw [callBy, callBy]
      split
      · apply evalBy_approximates hrule (ih (by omega))
      · apply Approximates.refl

/-- More fuel does not change the outcome of a call that was not cut short. -/
theorem callBy_fuel (rule : Rule) {n m : Nat} (hnm : n ≤ m) (f : Value) (args : List Value) :
  Approximates OutOfFuel (callBy rule n f args) (callBy rule m f args)
  := by
  have hfuel : OutOfFuel .outOfFuel := rfl
  exact callBy_approximates hfuel (.refl _ rule) hnm f args

/-- More fuel does not change the outcome of an evaluation that was not cut short. -/
theorem evalBy_fuel (rule : Rule) {n m : Nat} (hnm : n ≤ m) (env : Env) (t : Tree) :
  Approximates OutOfFuel (evalBy rule (callBy rule n) env t)
    (evalBy rule (callBy rule m) env t)
  := by
  exact evalBy_approximates (.refl _ rule) (callBy_fuel rule hnm) env t

/-- Evaluation at top level is approximated by one with less fuel and a rule that approximates its
own. -/
theorem evaluateBy_approximates
    {ignored : Stop → Prop} {rule rule' : Rule} (hfuel : ignored .outOfFuel)
    (hrule : rule.Approximates ignored rule') {n m : Nat} (hnm : n ≤ m) (ts : List Tree) :
  Approximates ignored (evaluateBy rule n ts) (evaluateBy rule' m ts)
  := by
  have hsequence : Approximates ignored (evalSequenceBy rule n ts) (evalSequenceBy rule' m ts) := by
    induction ts with
    | nil => apply Approximates.refl
    | cons t ts ih =>
      rw [evalSequenceBy, evalSequenceBy]
      apply (evalBy_approximates hrule (callBy_approximates hfuel hrule hnm) [] t).bind
      intro first
      apply ih.bind
      intro rest
      apply Approximates.refl
  apply hsequence.bind
  intro values
  apply Approximates.refl

/-- More fuel does not change the outcome of an evaluation at top level that was not cut short. -/
theorem evaluateBy_fuel (rule : Rule) {n m : Nat} (hnm : n ≤ m) (ts : List Tree) :
  Approximates OutOfFuel (evaluateBy rule n ts) (evaluateBy rule m ts)
  := by
  have hfuel : OutOfFuel .outOfFuel := rfl
  exact evaluateBy_approximates hfuel (.refl _ rule) hnm ts

/-- Calls that are never made. -/
def noCall (_ : Value) (_ : List Value) : Eval Value :=
  throw .outOfFuel

/-- An evaluation that calls nothing and compares no functions is the same under every rule that
has the results of keeping functions apart, whatever calls do. -/
theorem evalBy_of_noCall
    {rule : Rule} (hrule : ∀ b x y z, apart b x y = .ok z → rule b x y = .ok z)
    {env : Env} {t : Tree} {s s' : State} {v : Value}
    (h : evalBy apart noCall env t s = .ok v s') (call : Value → List Value → Eval Value) :
  evalBy rule call env t s = .ok v s'
  := by
  have happroximates : Approximates (fun _ => True) (evalBy apart noCall env t)
      (evalBy rule call env t) := by
    apply evalBy_approximates (.of_results hrule)
    intro f args
    exact .of_throw trivial _
  exact happroximates.eq_ok h

end Springboard.Evaluation
