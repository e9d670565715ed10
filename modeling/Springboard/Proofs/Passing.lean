import Springboard.Proofs.Evaluation

/-!
# Calls that follow each other

A tail ends in one call, and nothing is called before it. So it can be found out which function a
tail calls, and with which arguments, without making the call. A run of a program whose functions
have tails for bodies is a chain of such calls. It can be followed call by call, and the parameters
of the functions that are entered can be put down on the way.
-/

namespace Springboard.Evaluation

/-- What is called by a tail, with which arguments. -/
def aim (rule : Rule) (env : Env) : Tree → Eval (Value × List Value)
  | .application rator rands => do
    let function ← evalBy rule noCall env rator
    let args ← evalAllBy rule noCall env rands
    pure (function, args)
  | .conditional _ test conseq alt => do
    let decision ← evalBy rule noCall env test
    if Operand.isTrue decision then aim rule env conseq else aim rule env alt
  | _ => throw .outOfFuel

/-- Evaluations that call nothing and compare no functions are the same under every rule that has
the results of keeping functions apart, whatever calls do. -/
theorem evalAllBy_of_noCall
    {rule : Rule} (hrule : ∀ b x y z, apart b x y = .ok z → rule b x y = .ok z)
    {env : Env} {ts : List Tree} {s s' : State} {vs : List Value}
    (h : evalAllBy apart noCall env ts s = .ok vs s') (call : Value → List Value → Eval Value) :
  evalAllBy rule call env ts s = .ok vs s'
  := by
  have happroximates : Approximates (fun _ => True) (evalAllBy apart noCall env ts)
      (evalAllBy rule call env ts) := by
    apply evalAllBy_approximates (.of_results hrule)
    intro f args
    exact .of_throw trivial _
  exact happroximates.eq_ok h

/-- A tail makes the call that it aims at. -/
theorem evalBy_of_aim
    {rule : Rule} (hrule : ∀ b x y z, apart b x y = .ok z → rule b x y = .ok z) {env : Env}
    {s s' : State} {target : Value × List Value} (call : Value → List Value → Eval Value) :
    ∀ {t : Tree}, aim apart env t s = .ok target s' →
      evalBy rule call env t s = call target.1 target.2 s'
  | .application rator rands, h => by
      rw [aim, bind_eq_ok] at h
      obtain ⟨f, s₁, hf, h⟩ := h
      obtain ⟨args, s₂, hargs, h⟩ := bind_eq_ok.mp h
      obtain ⟨rfl, rfl⟩ := pure_eq_ok.mp h
      rw [evalBy, bind_of_ok (evalBy_of_noCall hrule hf call),
        bind_of_ok (evalAllBy_of_noCall hrule hargs call)]
  | .conditional _ test conseq alt, h => by
      rw [aim, bind_eq_ok] at h
      obtain ⟨decision, s₁, hdecision, h⟩ := h
      rw [evalBy, bind_of_ok (evalBy_of_noCall hrule hdecision call)]
      split at h
      · rename_i htrue
        rw [if_pos htrue]
        exact evalBy_of_aim hrule call h
      · rename_i hfalse
        rw [if_neg hfalse]
        exact evalBy_of_aim hrule call h
  | .literal _, h | .var _, h | .operation _ _, h | .abstraction _ _, h | .definition _ _ _ _, h
  | .blank, h | .continuation _ _, h | .resumption _ _, h | .entry _ _ _ _ _, h | .program _ _, h
  | .nothing, h | .number _, h | .text _, h | .list _, h | .tuple _, h => by
      simp only [aim] at h
      exact absurd h throw_ne_ok

/-! ### Chains of calls -/

/-- A call that comes to another one. The list has the parameters of the functions that are entered
on the way, the first of them first. -/
inductive Passes : Value × List Value → State → List (List String) → Value × List Value → State →
    Prop
  | refl (target : Value × List Value) (s : State) : Passes target s [] target s
  | step {id : Nat} {name : String} {params : List String} {body : Tree} {env : Env}
      {args : List Value} {s s₁ s' : State} {target₁ target' : Value × List Value}
      {entered : List (List String)} (hlength : params.length = args.length)
      (haim : aim apart (bindings params args ++ env) body s = .ok target₁ s₁)
      (h : Passes target₁ s₁ entered target' s') :
      Passes (.closure id name params body env, args) s (params :: entered) target' s'

/-- A tail that comes to a call. -/
def Arrives (env : Env) (t : Tree) (s : State) (entered : List (List String))
    (target : Value × List Value) (s' : State) : Prop :=
  ∃ target₁ s₁, aim apart env t s = .ok target₁ s₁ ∧ Passes target₁ s₁ entered target s'

/-- A tail that goes on as another one: it comes to what that comes to. -/
def GoesOn (env : Env) (t : Tree) (s : State) (entered : List (List String)) (env' : Env)
    (t' : Tree) (s' : State) : Prop :=
  ∀ {entered' target s''}, Arrives env' t' s' entered' target s'' →
    Arrives env t s (entered ++ entered') target s''

/-- A call that cannot be followed further. -/
def Rests (target : Value × List Value) : Prop :=
  ∀ {s entered target' s'}, Passes target s entered target' s' → entered = []

section Chains

variable {target target' target'' : Value × List Value} {s s' s'' : State}
variable {entered entered' : List (List String)}

/-- Chains of calls can be joined. -/
theorem Passes.trans (h : Passes target s entered target' s')
    (h' : Passes target' s' entered' target'' s'') :
  Passes target s (entered ++ entered') target'' s''
  := by
  induction h with
  | refl target s => exact h'
  | step hlength haim _ ih => exact .step hlength haim (ih h')

/-- A function that is called comes to what its body comes to. -/
theorem Passes.of_arrives {id : Nat} {name : String} {params : List String} {body : Tree} {env : Env}
    {args : List Value} (hlength : params.length = args.length)
    (h : Arrives (bindings params args ++ env) body s entered target s') :
  Passes (.closure id name params body env, args) s (params :: entered) target s'
  := by
  obtain ⟨target₁, s₁, haim, h⟩ := h
  exact .step hlength haim h

/-- What a tail comes to can be followed further. -/
theorem Arrives.trans {env : Env} {t : Tree} (h : Arrives env t s entered target s')
    (h' : Passes target s' entered' target' s'') :
  Arrives env t s (entered ++ entered') target' s''
  := by
  obtain ⟨target₁, s₁, haim, h⟩ := h
  exact ⟨target₁, s₁, haim, h.trans h'⟩

/-- Chains of calls that start with the same call and cannot be followed further enter the same
functions. -/
theorem Passes.unique (h : Passes target s entered target' s') (hrests : Rests target')
    (h' : Passes target s entered' target'' s'') (hrests' : Rests target'') :
  entered = entered'
  := by
  induction h generalizing entered' with
  | refl target s => exact (hrests h').symm
  | step hlength haim h ih =>
    cases h' with
    | refl => exact hrests' (.step hlength haim h)
    | step hlength' haim' h' =>
      rw [haim] at haim'
      cases haim'
      rw [ih hrests h']

end Chains

end Springboard.Evaluation
