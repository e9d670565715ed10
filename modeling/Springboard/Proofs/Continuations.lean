import Springboard.Proofs.Mirroring

/-!
# Continuations of threaded trees

A threaded tree does not return the value of the tree it was made from: it ends by calling its
continuation on it. The continuation is the tree of a function, or a variable that has to keep its
value while fresh names are bound. Runs with different fuel are compared by what they lead to.
-/

namespace Springboard.Evaluation

open NameSource Tree

/-! ### Runs and the fuel they need -/

/-- With some more fuel, `x` has the outcome that `y` has. -/
def Leads {α : Type} (x y : Nat → α) : Prop :=
  ∃ m, ∀ fuel, x (m + fuel) = y fuel

namespace Leads

/-- Every run leads to itself. -/
theorem refl {α : Type} (x : Nat → α) : Leads x x := by
  use 0
  intro fuel
  rw [Nat.zero_add]

/-- Runs with the same outcomes lead to each other. -/
theorem of_eq {α : Type} {x y : Nat → α} (h : ∀ fuel, x fuel = y fuel) : Leads x y := by
  use 0
  intro fuel
  rw [Nat.zero_add, h]

/-- A run leads to what remains of it after one step. -/
theorem of_succ {α : Type} {x y : Nat → α} (h : ∀ fuel, x (fuel + 1) = y fuel) : Leads x y := by
  use 1
  intro fuel
  rw [Nat.add_comm, h]

/-- What a run leads to can be followed further. -/
theorem trans {α : Type} {x y z : Nat → α} (hxy : Leads x y) (hyz : Leads y z) : Leads x z := by
  obtain ⟨m, hm⟩ := hxy
  obtain ⟨m', hm'⟩ := hyz
  use m + m'
  intro fuel
  rw [Nat.add_assoc, hm, hm']

end Leads

/-- The outcome of evaluating a tree in a state, for every fuel. -/
def runs (rule : Rule) (env : Env) (t : Tree) (s : State) (fuel : Nat) :
    EStateM.Result Stop State Value :=
  evalBy rule (callBy rule fuel) env t s

/-- The outcome of calling a function in a state, for every fuel. -/
def calls (rule : Rule) (f : Value) (args : List Value) (s : State) (fuel : Nat) :
    EStateM.Result Stop State Value :=
  callBy rule fuel f args s

/-- The values of two lists of trees, one after the other. -/
theorem evalAllBy_append
    {rule : Rule} {call : Value → List Value → Eval Value} {env : Env} {ts us : List Tree}
    {s s' : State} {ws : List Value} :
  evalAllBy rule call env (ts ++ us) s = .ok ws s'
    ↔ ∃ vs vs' s₁, ws = vs ++ vs' ∧ evalAllBy rule call env ts s = .ok vs s₁
      ∧ evalAllBy rule call env us s₁ = .ok vs' s'
  := by
  induction ts generalizing s ws with
  | nil =>
    rw [List.nil_append, evalAllBy]
    constructor
    · intro h
      exact ⟨[], ws, s, rfl, rfl, h⟩
    · rintro ⟨vs, vs', s₁, rfl, hvs, hvs'⟩
      obtain ⟨rfl, rfl⟩ := pure_eq_ok.mp hvs
      exact hvs'
  | cons t ts ih =>
    rw [List.cons_append, evalAllBy, evalAllBy]
    constructor
    · intro h
      obtain ⟨v, s₁, hv, h⟩ := bind_eq_ok.mp h
      obtain ⟨ws', s₂, hws', h⟩ := bind_eq_ok.mp h
      obtain ⟨rfl, rfl⟩ := pure_eq_ok.mp h
      obtain ⟨vs, vs', s₃, rfl, hvs, hvs'⟩ := ih.mp hws'
      refine ⟨v :: vs, vs', s₃, rfl, ?_, hvs'⟩
      rw [bind_of_ok hv, bind_of_ok hvs]
      rfl
    · rintro ⟨vs, vs', s₁, rfl, hvs, hvs'⟩
      obtain ⟨v, s₂, hv, hvs⟩ := bind_eq_ok.mp hvs
      obtain ⟨rest, s₃, hrest, h⟩ := bind_eq_ok.mp hvs
      obtain ⟨rfl, rfl⟩ := pure_eq_ok.mp h
      rw [bind_of_ok hv, bind_of_ok (ih.mpr ⟨rest, vs', s₃, rfl, hrest, hvs'⟩)]
      rfl

/-- The value of a single tree, as the only one of a list. -/
theorem evalAllBy_singleton
    {rule : Rule} {call : Value → List Value → Eval Value} {env : Env} {t : Tree} {s s' : State}
    {vs : List Value} :
  evalAllBy rule call env [t] s = .ok vs s'
    ↔ ∃ v, vs = [v] ∧ evalBy rule call env t s = .ok v s'
  := by
  rw [evalAllBy, bind_eq_ok]
  constructor
  · rintro ⟨v, s₁, hv, h⟩
    rw [evalAllBy, bind_of_ok (pure_eq _ _)] at h
    obtain ⟨rfl, rfl⟩ := pure_eq_ok.mp h
    exact ⟨v, rfl, hv⟩
  · rintro ⟨v, rfl, hv⟩
    refine ⟨v, s', hv, ?_⟩
    rw [evalAllBy, bind_of_ok (pure_eq _ _)]
    rfl

/-! ### Continuations -/

/-- What the tree of a continuation stands for in an environment: a variable for its value, and a
function for a closure over the environment. -/
inductive Denotes (G : List (String × Value)) (env : Env) : Tree → Value → Prop
  | var {x : String} {κ : Value} (h : find env G x = some κ) : Denotes G env (.var x) κ
  | abstraction (id : Nat) (s : String) (rest : Tree) :
      Denotes G env (.abstraction [s] rest) (.closure id "fn" [s] rest env)

/-- Drawn names do not hide what a name stands for that is spared. -/
theorem Drawn.find {n m : Int} {δ : Env} (h : Drawn n m δ) {x : String} (hx : Spares n m x)
    (env : Env) (G : List (String × Value)) :
  find (δ ++ env) G x = Evaluation.find env G x
  := by
  rw [Evaluation.find, Evaluation.find, h.lookup hx]

/-- A tree that stands for a continuation in an environment, and goes on to do so when names with
numbers from `n` on, below `m`, are bound. -/
def Waits (G : List (String × Value)) (env : Env) (n m : Int) (k : Tree) : Prop :=
  (∃ κ, Denotes G env k κ) ∧ ∀ x, k = .var x → Spares n m x

namespace Waits

variable {G : List (String × Value)} {env : Env} {n m : Int} {k : Tree}

/-- A continuation waits in a smaller range of numbers. -/
theorem mono (h : Waits G env n m k) {n' m' : Int} (hn : n ≤ n') (hm : m' ≤ m) :
  Waits G env n' m' k
  := by
  exact ⟨h.1, fun x hx => (h.2 x hx).mono hn hm⟩

/-- A continuation goes on waiting when names are drawn. -/
theorem extend (h : Waits G env n m k) {δ : Env} (hδ : Drawn n m δ) :
  Waits G (δ ++ env) n m k
  := by
  refine ⟨?_, h.2⟩
  obtain ⟨κ, hκ⟩ := h.1
  cases hκ with
  | @var x κ hx =>
    use κ
    apply Denotes.var
    rw [hδ.find (h.2 x rfl), hx]
  | abstraction id s rest => exact ⟨_, .abstraction id s rest⟩

/-- A function waits for a value. -/
theorem abstraction (G : List (String × Value)) (env : Env) (n m : Int) (s : String)
    (rest : Tree) :
  Waits G env n m (.abstraction [s] rest)
  := by
  constructor
  · exact ⟨_, .abstraction 0 s rest⟩
  · intro x hx
    contradiction

/-- A fresh name that was drawn before waits. -/
theorem var_nameOf {base : String} {i : Int} {κ : Value}
    (h : find env G (nameOf base i) = some κ) (hi : i < n) (m : Int) :
  Waits G env n m (.var (nameOf base i))
  := by
  refine ⟨⟨κ, .var h⟩, ?_⟩
  rintro x hx
  cases hx
  exact spares_nameOf base (.inl hi)

/-- A continuation evaluates to what it stands for. -/
theorem eval (h : Waits G env n m k) {s : State} (hs : Holds G s) :
  ∃ κ s', Denotes G env k κ ∧ Holds G s' ∧ ∀ rule call, evalBy rule call env k s = .ok κ s'
  := by
  obtain ⟨κ, hκ⟩ := h.1
  cases hκ with
  | @var x κ hx =>
    refine ⟨κ, s, .var hx, hs, ?_⟩
    intro rule call
    rw [evalBy, lookup_eq_ok, hs, hx]
    exact ⟨rfl, rfl⟩
  | abstraction id t rest =>
    refine ⟨_, { s with made := s.made + 1 }, .abstraction s.made t rest, hs, ?_⟩
    intro rule call
    rw [evalBy, makeClosure_eq]

end Waits

/-- The last parameter of a function is bound to the last argument. -/
theorem find_continuation
    {params : List String} {args : List Value} (h : params.length = args.length) (k : String)
    (κ : Value) (env : Env) (G : List (String × Value)) :
  find (bindings (params ++ [k]) (args ++ [κ]) ++ env) G k = some κ
  := by
  rw [find, bindings_append h, List.cons_append, List.lookup_cons_self, Option.some_or]

/-- Handing a value on is calling the continuation on it. -/
theorem evalBy_handed
    {rule : Rule} {fuel : Nat} {env : Env} {ak : String} {k value : Tree} {s s₁ s₂ : State}
    {id : Nat} {name : String} {κ v : Value}
    (hlocal : env.lookup ak = none)
    (hglobal : s.globals.lookup ak = some (.closure id name ["f", "v"] handing []))
    (hk : evalBy rule (callBy rule (fuel + 1)) env k s = .ok κ s₁)
    (hv : evalBy rule (callBy rule (fuel + 1)) env value s₁ = .ok v s₂) :
  evalBy rule (callBy rule (fuel + 1)) env (handed ak (some k) value) s
    = callBy rule fuel κ [v] s₂
  := by
  have hak : evalBy rule (callBy rule (fuel + 1)) env (.var ak) s
      = .ok (.closure id name ["f", "v"] handing []) s := by
    rw [evalBy, lookup_eq_ok, find, hlocal, Option.none_or]
    exact ⟨hglobal, rfl⟩
  have hargs : evalAllBy rule (callBy rule (fuel + 1)) env [k, value] s = .ok [κ, v] s₂ := by
    rw [evalAllBy, bind_of_ok hk, bind_of_ok (evalAllBy_singleton.mpr ⟨v, rfl, hv⟩)]
    rfl
  rw [handed, evalBy, bind_of_ok hak, bind_of_ok hargs, callBy, if_pos (by rfl)]
  -- the body of the helper calls its first argument on its second
  rfl

end Springboard.Evaluation
