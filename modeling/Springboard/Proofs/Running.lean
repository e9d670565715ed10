import Springboard.Machine.Run
import Springboard.Proofs.Comparison
import Springboard.Proofs.Outcome

/-!
# Runs under a watch

Runs of the machine with a watch as a parameter: it has a rule for the binary operators, and says
which works a trampoline may force. Under the watch that allows everything a run is the usual one.
A stricter watch stops a run that breaks it, so a run that has a value under it is a usual run in
which it was never broken. More fuel does not change the outcome of a run that was not cut short.
-/

namespace Springboard.Machine

/-- What binary operators compute. -/
abbrev Rule := BinaryOp → Value → Value → Except Fault Value

/-- What is watched in a run: the binary operators, and the works that trampolines force. -/
structure Watch where
  rule : Rule
  forces : Value → Bool

/-- The watch that allows everything. -/
def Watch.usual : Watch :=
  ⟨BinaryOp.apply, fun _ => true⟩

/-- Whether a value is a function. -/
def Value.isFunction (v : Value) : Bool :=
  v.functionName?.isSome

/-- The rule that refuses to compare two functions. -/
def apart : Rule :=
  BinaryOp.apart Value.isFunction

/-- Whether a value is a suspension: a function without a name and without parameters. -/
def Value.isSuspension : Value → Bool
  | closure _ _ none [] _ _ => true
  | _ => false

mutual

/-- The value of an expression under a rule; `call` says what calls of functions do. -/
def execBy (rule : Rule) (call : Value → List Value → Run Value) (home : Nat)
    (globals : Namespace) (env : Env) : Code → Run Value
  | .constant n => pure (.number n)
  | .name x => lookup globals env x
  | .negate a => do
    let v ← execBy rule call home globals env a
    attempt (Operand.negate v)
  | .deny a => do
    let v ← execBy rule call home globals env a
    pure (Operand.ofBool (!Operand.isTrue v))
  | .binary op a b => do
    let v ← execBy rule call home globals env a
    let w ← execBy rule call home globals env b
    attempt (rule op v w)
  | .choose test conseq alt => do
    let decision ← execBy rule call home globals env test
    if Operand.isTrue decision then execBy rule call home globals env conseq
    else execBy rule call home globals env alt
  | .lambda params body => do
    let id ← freshId
    pure (.closure id home none params body env)
  | .call f args => do
    let function ← execBy rule call home globals env f
    let values ← execAllBy rule call home globals env args
    call function values

/-- The values of some expressions under a rule, from the left. -/
def execAllBy (rule : Rule) (call : Value → List Value → Run Value) (home : Nat)
    (globals : Namespace) (env : Env) : List Code → Run (List Value)
  | [] => pure []
  | a :: rest => do
    let first ← execBy rule call home globals env a
    let others ← execAllBy rule call home globals env rest
    pure (first :: others)

end

/-- The call of a function under a watch. -/
def callBy (w : Watch) (spaces : List Namespace) : Nat → Value → List Value → Run Value
  | 0, _, _ => throw .outOfFuel
  | fuel + 1, function, args =>
    match function, args with
    | .closure id home own params body env, args =>
      if params.length = args.length then
        let self := (own.map fun x => (x, Value.closure id home own params body env)).toList
        execBy w.rule (callBy w spaces fuel) home (spaces[home]?.getD [])
          (bindings params args ++ self ++ env) body
      else fail .mismatch
    | .entry _ home e identity, args =>
      let globals := spaces[home]?.getD []
      if args.length = e.params.length then enter (callBy w spaces fuel) home globals e args identity
      else if args.length = e.params.length + 1 then
        enter (callBy w spaces fuel) home globals e args.dropLast (args.getLast?.getD .nothing)
      else fail .mismatch
    | .helper .identity, [value] => pure value
    | .helper .makeFlag, [k] => makeFlag k
    | .helper .applyK, [k, value] => do
      let k ← settled k
      callBy w spaces fuel k [value]
    | .helper .trampoline, [work, .flag index] => do
      if ← isDone index then pure work
      else if w.forces work then
        let next ← callBy w spaces fuel work []
        callBy w spaces fuel (.helper .trampoline) [next, .flag index]
      else fail .mismatch
    | .helper .trampoline, [_, _] => fail .missingAttribute
    | .adder _ amount, [value] => attempt (BinaryOp.add.apply value amount)
    | .relay _ amount k, [value] => do
      let id ← freshId
      pure (.handing id k value (some amount))
    | .handing _ k value none, [] => callBy w spaces fuel (.helper .applyK) [k, value]
    | .handing _ k value (some amount), [] => do
      let sum ← attempt (BinaryOp.add.apply value amount)
      callBy w spaces fuel (.helper .applyK) [k, sum]
    | .delay id steps work, [] => pure (if steps ≤ 1 then work else .delay id (steps - 1) work)
    | .failing _, [] => fail .zeroDivision
    | _, _ => fail .mismatch

/-! ### The watch that allows everything -/

mutual

/-- Under the usual rule the value of an expression is the usual one. -/
theorem execBy_apply (call : Value → List Value → Run Value) (home : Nat) (globals : Namespace)
    (env : Env) :
    ∀ code, execBy BinaryOp.apply call home globals env code = execWith call home globals env code
  | .constant _ | .name _ | .lambda _ _ => by
      rw [execBy, execWith]
  | .negate a | .deny a => by
      rw [execBy, execWith, execBy_apply call home globals env a]
  | .binary op a b => by
      rw [execBy, execWith, execBy_apply call home globals env a,
        execBy_apply call home globals env b]
  | .choose test conseq alt => by
      rw [execBy, execWith, execBy_apply call home globals env test,
        execBy_apply call home globals env conseq, execBy_apply call home globals env alt]
  | .call f args => by
      rw [execBy, execWith, execBy_apply call home globals env f,
        execAllBy_apply call home globals env args]

/-- Under the usual rule the values of some expressions are the usual ones. -/
theorem execAllBy_apply (call : Value → List Value → Run Value) (home : Nat)
    (globals : Namespace) (env : Env) :
    ∀ codes, execAllBy BinaryOp.apply call home globals env codes
      = execAll call home globals env codes
  | [] => by
      rw [execAllBy, execAll]
  | a :: rest => by
      rw [execAllBy, execAll, execBy_apply call home globals env a,
        execAllBy_apply call home globals env rest]

end

/-- Under the usual watch calls are the usual ones. -/
theorem callBy_usual (spaces : List Namespace) (fuel : Nat) :
  callBy .usual spaces fuel = call spaces fuel
  := by
  induction fuel with
  | zero => rfl
  | succ fuel ih =>
    funext f args
    have hrule : Watch.usual.rule = BinaryOp.apply := rfl
    have hforces : ∀ v, Watch.usual.forces v = true := fun _ => rfl
    rw [callBy.eq_def, call.eq_def]
    simp only [ih, hrule, hforces, execBy_apply, if_true] <;> rfl

/-! ### Other watches and more fuel -/

/-- Under every binary operator `rule` has the results of `rule'`, or stops for a reason that is
ignored. -/
def Rule.Approximates (ignored : Stop → Prop) (rule rule' : Rule) : Prop :=
  ∀ op v w, Springboard.Approximates ignored (attempt (rule op v w)) (attempt (rule' op v w))

mutual

/-- The value of an expression is approximated when operators and calls are. -/
theorem execBy_approximates
    {ignored : Stop → Prop} {rule rule' : Rule} (hrule : rule.Approximates ignored rule')
    {call call' : Value → List Value → Run Value}
    (hcall : ∀ f args, Approximates ignored (call f args) (call' f args)) (home : Nat)
    (globals : Namespace) (env : Env) :
    ∀ code, Approximates ignored (execBy rule call home globals env code)
      (execBy rule' call' home globals env code)
  | .constant _ | .name _ | .lambda _ _ => by
      rw [execBy, execBy]
      apply Approximates.refl
  | .negate a | .deny a => by
      rw [execBy, execBy]
      apply (execBy_approximates hrule hcall home globals env a).bind
      intro v
      apply Approximates.refl
  | .binary op a b => by
      rw [execBy, execBy]
      apply (execBy_approximates hrule hcall home globals env a).bind
      intro v
      apply (execBy_approximates hrule hcall home globals env b).bind
      intro w
      apply hrule
  | .choose test conseq alt => by
      rw [execBy, execBy]
      apply (execBy_approximates hrule hcall home globals env test).bind
      intro decision
      split
      · apply execBy_approximates hrule hcall home globals env conseq
      · apply execBy_approximates hrule hcall home globals env alt
  | .call f args => by
      rw [execBy, execBy]
      apply (execBy_approximates hrule hcall home globals env f).bind
      intro function
      apply (execAllBy_approximates hrule hcall home globals env args).bind
      intro values
      apply hcall

/-- The values of some expressions are approximated when operators and calls are. -/
theorem execAllBy_approximates
    {ignored : Stop → Prop} {rule rule' : Rule} (hrule : rule.Approximates ignored rule')
    {call call' : Value → List Value → Run Value}
    (hcall : ∀ f args, Approximates ignored (call f args) (call' f args)) (home : Nat)
    (globals : Namespace) (env : Env) :
    ∀ codes, Approximates ignored (execAllBy rule call home globals env codes)
      (execAllBy rule' call' home globals env codes)
  | [] => by
      rw [execAllBy, execAllBy]
      apply Approximates.refl
  | a :: rest => by
      rw [execAllBy, execAllBy]
      apply (execBy_approximates hrule hcall home globals env a).bind
      intro first
      apply (execAllBy_approximates hrule hcall home globals env rest).bind
      intro others
      apply Approximates.refl

end

/-- What an entry does is approximated when calls are. -/
theorem enter_approximates
    {ignored : Stop → Prop} {call call' : Value → List Value → Run Value}
    (hcall : ∀ f args, Approximates ignored (call f args) (call' f args)) (home : Nat)
    (globals : Namespace) (e : Entry) (args : List Value) (k : Value) :
  Approximates ignored (enter call home globals e args k) (enter call' home globals e args k)
  := by
  have hrule : Rule.Approximates ignored BinaryOp.apply BinaryOp.apply :=
    fun op v w => .refl _
  unfold enter
  apply (Approximates.refl _).bind
  intro maker
  apply (hcall maker [k]).bind
  intro flag
  apply (Approximates.refl _).bind
  intro id
  rw [← execBy_apply, ← execBy_apply]
  apply execBy_approximates hrule hcall

/-- Watches of which the first allows less; what it stops is ignored. -/
structure Watch.Approximates (ignored : Stop → Prop) (w w' : Watch) : Prop where
  rule : w.rule.Approximates ignored w'.rule
  forces (v : Value) :
    w.forces v = w'.forces v ∨ w.forces v = false ∧ ignored (.failed (.fault .mismatch))

/-- A call is approximated by one with less fuel and a watch that approximates its own. -/
theorem callBy_approximates
    {ignored : Stop → Prop} {w w' : Watch} (hfuel : ignored .outOfFuel)
    (hw : w.Approximates ignored w') (spaces : List Namespace) {n m : Nat} (hnm : n ≤ m)
    (f : Value) (args : List Value) :
  Approximates ignored (callBy w spaces n f args) (callBy w' spaces m f args)
  := by
  induction n generalizing m f args with
  | zero => exact .of_throw hfuel _
  | succ n ih =>
    obtain ⟨m, rfl⟩ : ∃ m', m = m' + 1 := ⟨m - 1, by omega⟩
    have ih := fun f args => @ih m (by omega) f args
    rw [callBy.eq_def, callBy.eq_def w']
    dsimp only
    split
    · split
      · apply execBy_approximates hw.rule ih
      · apply Approximates.refl
    · split
      · apply enter_approximates ih
      · split
        · apply enter_approximates ih
        · apply Approximates.refl
    · apply Approximates.refl
    · apply Approximates.refl
    · apply (Approximates.refl _).bind
      intro k
      apply ih
    · apply (Approximates.refl _).bind
      intro done
      split
      · apply Approximates.refl
      · rename_i work index _
        obtain hsame | ⟨hrefused, hignored⟩ := hw.forces work
        · rw [hsame]
          split
          · apply (ih work []).bind
            intro next
            apply ih
          · apply Approximates.refl
        · rw [hrefused, if_neg Bool.false_ne_true]
          exact .of_throw hignored _
    · apply Approximates.refl
    · apply Approximates.refl
    · apply Approximates.refl
    · apply ih
    · apply (Approximates.refl _).bind
      intro sum
      apply ih
    · apply Approximates.refl
    · apply Approximates.refl
    · apply Approximates.refl

/-- More fuel does not change the outcome of a call that was not cut short. -/
theorem callBy_fuel
    (w : Watch) (spaces : List Namespace) {n m : Nat} (hnm : n ≤ m) (f : Value)
    (args : List Value) :
  Approximates OutOfFuel (callBy w spaces n f args) (callBy w spaces m f args)
  := by
  have hfuel : OutOfFuel .outOfFuel := rfl
  exact callBy_approximates hfuel ⟨fun op v w => .refl _, fun v => .inl rfl⟩ spaces hnm f args

/-- A call with more fuel has the value that it has with less. -/
theorem callBy_mono
    {w : Watch} {spaces : List Namespace} {n m : Nat} (hnm : n ≤ m) {f : Value}
    {args : List Value} {s s' : State} {v : Value}
    (h : callBy w spaces n f args s = .ok v s') :
  callBy w spaces m f args s = .ok v s'
  := by
  exact (callBy_fuel w spaces hnm f args).eq_ok h

/-- A call that has a value where functions are kept apart has it in the usual run too, whichever
works may be forced. -/
theorem call_of_apart
    {forces : Value → Bool} {spaces : List Namespace} {fuel : Nat} {f : Value} {args : List Value}
    {s s' : State} {v : Value} (h : callBy ⟨apart, forces⟩ spaces fuel f args s = .ok v s') :
  call spaces fuel f args s = .ok v s'
  := by
  rw [← callBy_usual]
  have hwatch : Watch.Approximates (fun _ => True) ⟨apart, forces⟩ .usual := by
    constructor
    · intro op v w
      dsimp only
      cases hop : apart op v w with
      | error e => exact .of_throw trivial _
      | ok u =>
        have happly : Watch.usual.rule op v w = .ok u := BinaryOp.apply_of_apart hop
        rw [happly]
        apply Approximates.refl
    · intro v
      cases hforces : forces v with
      | true => exact .inl hforces
      | false => exact .inr ⟨hforces, trivial⟩
  exact (callBy_approximates trivial hwatch spaces (Nat.le_refl fuel) f args).eq_ok h

end Springboard.Machine
