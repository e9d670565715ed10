import Mathlib.Logic.Relation
import Springboard.Proofs.Bouncing
import Springboard.Proofs.SetFlags

/-!
# Chains of flags

The flags of a run form a heap: each wraps a continuation, which may be a flag again. A flag wraps
only what was there before it, so from every continuation a finite chain of flags leads to one that
is no flag. Handing a value to a continuation sets the flags of its chain, and then calls what is at
the end. The state changes in three ways only: a function is numbered, a flag is made, or a chain is
set. Every run of whatever functions is a path of such steps, also if it fails or is cut short, and
so what the steps keep is kept by every run.
-/

namespace Springboard.Machine

/-- The state in which a computation ends, with a value or without one. -/
def ending {α : Type} : EStateM.Result Stop State α → State
  | .ok _ s => s
  | .error _ s => s

/-- A value in which all flags are among the first `n`. -/
inductive Value.Within (n : Nat) : Value → Prop
  | number (m : Number) : Within n (.number m)
  | nothing : Within n .nothing
  | helper (h : Helper) : Within n (.helper h)
  | flag {i : Nat} (h : i < n) : Within n (.flag i)
  | closure (id home : Nat) (own : Option String) (params : List String) (body : Code)
      {env : Env} (henv : ∀ b ∈ env, Within n b.2) :
      Within n (.closure id home own params body env)
  | entry (id home : Nat) (code : Entry) {identity : Value} (h : Within n identity) :
      Within n (.entry id home code identity)
  | adder (id : Nat) {amount : Value} (h : Within n amount) : Within n (.adder id amount)
  | relay (id : Nat) {amount k : Value} (h : Within n amount) (hk : Within n k) :
      Within n (.relay id amount k)
  | handing (id : Nat) {k value : Value} {amount : Option Value} (hk : Within n k)
      (hvalue : Within n value) (h : ∀ a ∈ amount, Within n a) :
      Within n (.handing id k value amount)
  | delay (id steps : Nat) {work : Value} (h : Within n work) : Within n (.delay id steps work)
  | failing (id : Nat) : Within n (.failing id)

/-- More flags may be made. -/
theorem Value.Within.mono {n m : Nat} (hnm : n ≤ m) {v : Value} (h : v.Within n) : v.Within m := by
  induction h with
  | number m => exact .number m
  | nothing => exact .nothing
  | helper h => exact .helper h
  | flag h => exact .flag (Nat.lt_of_lt_of_le h hnm)
  | closure id home own params body _ ih => exact .closure id home own params body ih
  | entry id home code _ ih => exact .entry id home code ih
  | adder id _ ih => exact .adder id ih
  | relay id _ _ ih ihk => exact .relay id ih ihk
  | handing id _ _ _ ihk ihvalue ih => exact .handing id ihk ihvalue ih
  | delay id steps _ ih => exact .delay id steps ih
  | failing id => exact .failing id

/-! ### Chains -/

/-- The chain of flags from a continuation on, each of which wraps the next. It ends with a
continuation that is no flag. -/
inductive Chain (flags : Array Flag) : Value → List Nat → Value → Prop
  | nil {k : Value} (h : ∀ i, k ≠ .flag i) : Chain flags k [] k
  | cons {i : Nat} {f : Flag} {chain : List Nat} {k : Value} (hf : flags[i]? = some f)
      (h : Chain flags f.k chain k) : Chain flags (.flag i) (i :: chain) k

/-- The flags after those of a chain have been set. -/
def marked (chain : List Nat) (flags : Array Flag) : Array Flag :=
  flags.mapIdx fun i f => ⟨f.k, f.done || chain.contains i⟩

/-- Each flag wraps only what was there before it. -/
def Ordered (flags : Array Flag) : Prop :=
  ∀ (i : Nat) (f : Flag), flags[i]? = some f → f.k.Within i

/-- A flag that is set and wraps another one wraps one that is set. -/
def Linked (flags : Array Flag) : Prop :=
  ∀ i j : Nat, flags[i]? = some ⟨.flag j, true⟩ → ∃ k, flags[j]? = some ⟨k, true⟩

/-- Later flags: the earlier ones are among them, each with the continuation that it wrapped, and
set if it was set. -/
def Kept (flags flags' : Array Flag) : Prop :=
  ∀ (i : Nat) (f : Flag), flags[i]? = some f →
    ∃ done, flags'[i]? = some ⟨f.k, done⟩ ∧ (f.done = true → done = true)

section Chains

variable {flags flags' : Array Flag} {k k₀ : Value} {chain : List Nat}

/-- A flag after those of a chain have been set. -/
theorem getElem?_marked (chain : List Nat) (flags : Array Flag) (i : Nat) :
  (marked chain flags)[i]? = flags[i]?.map fun f => ⟨f.k, f.done || chain.contains i⟩
  := by
  rw [marked, Array.getElem?_mapIdx]

/-- Setting flags makes none. -/
theorem size_marked (chain : List Nat) (flags : Array Flag) :
  (marked chain flags).size = flags.size
  := by
  rw [marked, Array.size_mapIdx]

/-- Where no flag is to be set, none is. -/
theorem marked_nil (flags : Array Flag) : marked [] flags = flags := by
  apply Array.ext_getElem?
  intro i
  rw [getElem?_marked]
  cases flags[i]? with
  | none => rfl
  | some f => simp

/-- Setting a flag and then others. -/
theorem marked_cons {i : Nat} {f : Flag} (hf : flags[i]? = some f) (chain : List Nat) :
  marked chain (flags.setIfInBounds i ⟨f.k, true⟩) = marked (i :: chain) flags
  := by
  obtain ⟨hlt, -⟩ := Array.getElem?_eq_some_iff.mp hf
  apply Array.ext_getElem?
  intro j
  rw [getElem?_marked, getElem?_marked, Array.getElem?_setIfInBounds, if_pos hlt]
  split
  · rename_i hij
    subst hij
    simp [hf]
  · rename_i hij
    cases flags[j]? with
    | none => rfl
    | some g => simp [Ne.symm hij]

/-- The end of a chain is no flag. -/
theorem Chain.ne_flag (h : Chain flags k chain k₀) (i : Nat) : k₀ ≠ .flag i := by
  induction h with
  | nil h => exact h i
  | cons _ _ ih => exact ih

/-- The flags of a chain are there. -/
theorem Chain.exists_of_mem (h : Chain flags k chain k₀) {i : Nat} (hi : i ∈ chain) :
  ∃ f, flags[i]? = some f
  := by
  induction h with
  | nil _ => contradiction
  | @cons j f chain k hf _ ih =>
    rcases List.mem_cons.mp hi with rfl | hi
    · exact ⟨f, hf⟩
    · exact ih hi

/-- What a flag of a chain wraps belongs to the chain, if it is a flag. -/
theorem Chain.mem_of_wraps (h : Chain flags k chain k₀) {i j : Nat} {done : Bool} (hi : i ∈ chain)
    (hf : flags[i]? = some ⟨.flag j, done⟩) :
  j ∈ chain
  := by
  induction h with
  | nil _ => contradiction
  | cons hg h ih =>
    rcases List.mem_cons.mp hi with rfl | hi
    · rw [hg] at hf
      cases hf
      cases h with
      | nil h => exact absurd rfl (h j)
      | cons _ _ => exact List.mem_cons_of_mem _ List.mem_cons_self
    · exact List.mem_cons_of_mem _ (ih hi)

/-- Where flags wrap only what was there before them, every continuation has a chain, which is no
longer than the numbers below it allow. -/
theorem exists_chain (hordered : Ordered flags) {n : Nat} (hn : n ≤ flags.size)
    (hk : k.Within n) :
  ∃ chain k₀, Chain flags k chain k₀ ∧ chain.length ≤ n ∧ k₀.Within n
  := by
  induction n using Nat.strongRecOn generalizing k with
  | ind n ih =>
    by_cases hflag : ∃ i, k = .flag i
    · obtain ⟨i, rfl⟩ := hflag
      cases hk with
      | flag hi =>
        obtain ⟨f, hf⟩ : ∃ f, flags[i]? = some f :=
          ⟨_, Array.getElem?_eq_getElem (Nat.lt_of_lt_of_le hi hn)⟩
        obtain ⟨chain, k₀, hchain, hlength, hk₀⟩ := ih i hi (by omega) (hordered i f hf)
        refine ⟨i :: chain, k₀, .cons hf hchain, ?_, hk₀.mono (Nat.le_of_lt hi)⟩
        exact Nat.lt_of_le_of_lt hlength hi
    · have hne : ∀ i, k ≠ .flag i := fun i h => hflag ⟨i, h⟩
      exact ⟨[], k, .nil hne, Nat.zero_le n, hk⟩

/-- Settling sets the flags of the chain and comes to its end, if there are steps enough. -/
theorem settle_eq_marked (h : Chain flags k chain k₀) {steps : Nat} (hsteps : chain.length ≤ steps)
    (hsame : ∀ i : Nat, flags'[i]?.map Flag.k = flags[i]?.map Flag.k) :
  settle steps flags' k = (marked chain flags', k₀)
  := by
  induction h generalizing steps flags' with
  | @nil k hk =>
    rw [marked_nil]
    cases steps with
    | zero => rw [settle.eq_def]
    | succ steps =>
      cases k with
      | flag i => exact absurd rfl (hk i)
      | _ => rfl
  | @cons i f chain k hf _ ih =>
    cases steps with
    | zero => contradiction
    | succ steps =>
      have hi := hsame i
      rw [hf] at hi
      obtain ⟨f', hf', hk⟩ := Option.map_eq_some_iff.mp hi
      have hsame' : ∀ j : Nat, (flags'.setIfInBounds i ⟨f'.k, true⟩)[j]?.map Flag.k
          = flags[j]?.map Flag.k := by
        intro j
        obtain ⟨hlt, -⟩ := Array.getElem?_eq_some_iff.mp hf'
        rw [Array.getElem?_setIfInBounds, if_pos hlt]
        split
        · rename_i hij
          subst hij
          rw [hf]
          exact congrArg some hk
        · exact hsame j
      rw [settle, hf', ← marked_cons hf']
      dsimp only
      rw [hk] at hsame' ⊢
      exact ih (Nat.le_of_succ_le_succ hsteps) hsame'

/-- Setting the flags of a chain keeps the flags. -/
theorem kept_marked (chain : List Nat) (flags : Array Flag) : Kept flags (marked chain flags) := by
  intro i f hf
  refine ⟨f.done || chain.contains i, ?_, ?_⟩
  · rw [getElem?_marked, hf]
    rfl
  · intro hdone
    rw [hdone, Bool.true_or]

/-- Making a flag keeps the others. -/
theorem kept_push (flags : Array Flag) (f : Flag) : Kept flags (flags.push f) := by
  intro i g hg
  obtain ⟨hlt, -⟩ := Array.getElem?_eq_some_iff.mp hg
  refine ⟨g.done, ?_, id⟩
  rw [Array.getElem?_push_lt hlt, ← hg]
  exact (Array.getElem?_eq_getElem hlt).symm

/-- Flags are kept from the first to the last of three states. -/
theorem Kept.trans {flags₁ : Array Flag} (h : Kept flags flags₁) (h' : Kept flags₁ flags') :
  Kept flags flags'
  := by
  intro i f hf
  obtain ⟨done, hdone, himp⟩ := h i f hf
  obtain ⟨done', hdone', himp'⟩ := h' i _ hdone
  exact ⟨done', hdone', fun h => himp' (himp h)⟩

/-- Setting flags leaves the order alone. -/
theorem Ordered.marked (h : Ordered flags) (chain : List Nat) : Ordered (marked chain flags) := by
  intro i f hf
  rw [getElem?_marked] at hf
  obtain ⟨g, hg, rfl⟩ := Option.map_eq_some_iff.mp hf
  exact h i g hg

/-- A new flag that wraps what is there comes last. -/
theorem Ordered.push (h : Ordered flags) (hk : k.Within flags.size) (done : Bool) :
  Ordered (flags.push ⟨k, done⟩)
  := by
  intro i f hf
  rw [Array.getElem?_push] at hf
  split at hf
  · rename_i hi
    subst hi
    cases hf
    exact hk
  · exact h i f hf

/-- When the flags of a chain are set, those that they wrap are set too. -/
theorem Linked.marked (h : Linked flags) (hchain : Chain flags k chain k₀) :
  Linked (marked chain flags)
  := by
  have hset : ∀ j ∈ chain, ∃ k, (Machine.marked chain flags)[j]? = some ⟨k, true⟩ := by
    intro j hj
    obtain ⟨f, hf⟩ := hchain.exists_of_mem hj
    refine ⟨f.k, ?_⟩
    rw [getElem?_marked, hf]
    simp [hj]
  intro i j hi
  rw [getElem?_marked] at hi
  obtain ⟨⟨fk, fdone⟩, hf, heq⟩ := Option.map_eq_some_iff.mp hi
  obtain ⟨rfl, hdone⟩ : fk = .flag j ∧ (fdone || chain.contains i) = true := by
    injection heq with hk hdone
    exact ⟨hk, hdone⟩
  rcases (Bool.or_eq_true _ _).mp hdone with rfl | hmem
  · obtain ⟨k, hk⟩ := h i j hf
    refine ⟨k, ?_⟩
    rw [getElem?_marked, hk]
    rfl
  · exact hset j (hchain.mem_of_wraps (List.contains_iff_mem.mp hmem) hf)

/-- A new flag is not set. -/
theorem Linked.push (h : Linked flags) (k : Value) : Linked (flags.push ⟨k, false⟩) := by
  intro i j hi
  rw [Array.getElem?_push] at hi
  split at hi
  · cases hi
  · obtain ⟨k', hk'⟩ := h i j hi
    obtain ⟨hlt, -⟩ := Array.getElem?_eq_some_iff.mp hk'
    refine ⟨k', ?_⟩
    rw [Array.getElem?_push, if_neg (Nat.ne_of_lt hlt)]
    exact hk'

end Chains

/-! ### Steps -/

/-- What changes the state: a function is numbered, a flag is made around a continuation, or the
flags on the way of a value to a continuation are set. -/
inductive Step (s : State) : State → Prop
  | numbered {id : Nat} {s' : State} (h : freshId s = .ok id s') : Step s s'
  | made {k flag : Value} {s' : State} (hk : k.Within s.flags.size)
      (h : makeFlag k s = .ok flag s') : Step s s'
  | handed {k k' : Value} {s' : State} (hk : k.Within s.flags.size)
      (h : settled k s = .ok k' s') : Step s s'

/-- The states that are passed from a state on. -/
abbrev Passes : State → State → Prop :=
  Relation.ReflTransGen Step

section Steps

variable {s s' : State}

/-- What handing a value on does, where flags wrap only what was there before them. -/
theorem exists_settled (hordered : Ordered s.flags) {k : Value} (hk : k.Within s.flags.size) :
  ∃ chain k₀, Chain s.flags k chain k₀ ∧ k₀.Within s.flags.size
    ∧ settle s.flags.size s.flags k = (marked chain s.flags, k₀)
    ∧ settled k s = .ok k₀ ⟨marked chain s.flags, s.made⟩
  := by
  obtain ⟨chain, k₀, hchain, hlength, hk₀⟩ := exists_chain hordered (Nat.le_refl _) hk
  have hsettle := settle_eq_marked hchain hlength fun _ => rfl
  refine ⟨chain, k₀, hchain, hk₀, hsettle, ?_⟩
  have hmodify : settled k s = .ok (settle s.flags.size s.flags k).2
      ⟨(settle s.flags.size s.flags k).1, s.made⟩ := rfl
  rw [hmodify, hsettle]

/-- A step keeps the flags, the order and the links. -/
theorem Step.keeps (h : Step s s') (hordered : Ordered s.flags) :
  Kept s.flags s'.flags ∧ Ordered s'.flags ∧ (Linked s.flags → Linked s'.flags)
  := by
  cases h with
  | numbered h =>
    cases h
    exact ⟨fun i f hf => ⟨f.done, hf, id⟩, hordered, id⟩
  | @made k flag _ hk h =>
    cases h
    exact ⟨kept_push _ _, hordered.push hk false, fun hlinked => hlinked.push k⟩
  | handed hk h =>
    obtain ⟨chain, k₀, hchain, -, -, hsettled⟩ := exists_settled hordered hk
    rw [hsettled] at h
    cases h
    exact ⟨kept_marked _ _, hordered.marked chain, fun hlinked => hlinked.marked hchain⟩

/-- Steps keep the flags, the order and the links. -/
theorem Passes.keeps (h : Passes s s') (hordered : Ordered s.flags) :
  Kept s.flags s'.flags ∧ Ordered s'.flags ∧ (Linked s.flags → Linked s'.flags)
  := by
  induction h with
  | refl => exact ⟨fun i f hf => ⟨f.done, hf, id⟩, hordered, id⟩
  | tail _ hstep ih =>
    obtain ⟨hkept, hordered, hlinked⟩ := ih
    obtain ⟨hkept', hordered', hlinked'⟩ := hstep.keeps hordered
    exact ⟨hkept.trans hkept', hordered', fun h => hlinked' (hlinked h)⟩

/-- No flag disappears. -/
theorem Kept.size_le {flags flags' : Array Flag} (h : Kept flags flags') :
  flags.size ≤ flags'.size
  := by
  by_contra hlt
  obtain ⟨done, hdone, -⟩ := h flags'.size _ (Array.getElem?_eq_getElem (by omega))
  obtain ⟨hlt', -⟩ := Array.getElem?_eq_some_iff.mp hdone
  exact Nat.lt_irrefl _ hlt'

end Steps

/-! ### Runs -/

/-- From the state on, a computation goes by steps, and its value is good for the number of flags
that there are then. -/
def Walks {α : Type} (good : Nat → α → Prop) (s : State) (x : Run α) : Prop :=
  Passes s (ending (x s)) ∧ ∀ a s', x s = .ok a s' → good s'.flags.size a

/-- All values that are bound are within the first `n` flags. -/
def BindsWithin (n : Nat) (env : List (String × Value)) : Prop :=
  ∀ b ∈ env, b.2.Within n

/-- From a state with at least `n` flags on, calls go by steps. -/
def CallsWalk (n : Nat) (call : Value → List Value → Run Value) : Prop :=
  ∀ s f args, Ordered s.flags → n ≤ s.flags.size → f.Within s.flags.size →
    (∀ a ∈ args, a.Within s.flags.size) → Walks Value.Within s (call f args)

section Runs

variable {α β : Type} {good : Nat → α → Prop} {good' : Nat → β → Prop} {s : State}

/-- Giving back a value takes no step. -/
theorem Walks.pure {a : α} (h : good s.flags.size a) : Walks good s (pure a) := by
  refine ⟨.refl, ?_⟩
  intro b s' hb
  obtain ⟨rfl, rfl⟩ := pure_eq_ok.mp hb
  exact h

/-- Failing takes no step. -/
theorem Walks.throw (e : Stop) : Walks good s (throw e) := by
  refine ⟨.refl, ?_⟩
  intro b s' hb
  exact absurd hb throw_ne_ok

/-- What may fault takes no step. -/
theorem Walks.attempt {x : Except Fault α} (h : ∀ a, x = .ok a → good s.flags.size a) :
  Walks good s (attempt x)
  := by
  cases x with
  | ok a => exact .pure (h a rfl)
  | error e => exact .throw _

/-- A binary operator takes no step. -/
theorem walks_apply (op : BinaryOp) (v w : Value) :
  Walks Value.Within s (Machine.attempt (op.apply v w))
  := by
  apply Walks.attempt
  intro u hu
  obtain ⟨m, rfl⟩ := exists_number_of_apply hu
  exact .number m

/-- Sequences go by steps when their parts do. -/
theorem Walks.bind {x : Run α} {f : α → Run β} (hs : Ordered s.flags) (hx : Walks good s x)
    (hf : ∀ a s', Ordered s'.flags → s.flags.size ≤ s'.flags.size → good s'.flags.size a →
      Walks good' s' (f a)) :
  Walks good' s (x >>= f)
  := by
  obtain ⟨hpasses, hgood⟩ := hx
  cases hxs : x s with
  | error e s' =>
    rw [hxs] at hpasses
    rw [Walks, bind_of_error hxs]
    refine ⟨hpasses, ?_⟩
    intro b s'' hb
    contradiction
  | ok a s' =>
    rw [hxs] at hpasses
    obtain ⟨hkept, hordered, -⟩ := hpasses.keeps hs
    obtain ⟨hrest, hvalue⟩ := hf a s' hordered hkept.size_le (hgood a s' hxs)
    rw [Walks, bind_of_ok hxs]
    exact ⟨hpasses.trans hrest, hvalue⟩

/-- Numbering a function is a step. -/
theorem walks_freshId : Walks (fun _ _ => True) s freshId :=
  ⟨.single (.numbered rfl), fun _ _ _ => trivial⟩

/-- Making a flag is a step. -/
theorem walks_makeFlag {k : Value} (hk : k.Within s.flags.size) :
  Walks Value.Within s (makeFlag k)
  := by
  refine ⟨.single (.made hk rfl), ?_⟩
  intro v s' hv
  cases hv
  apply Value.Within.flag
  rw [Array.size_push]
  exact Nat.lt_succ_self _

/-- Handing a value on is a step. -/
theorem walks_settled (hs : Ordered s.flags) {k : Value} (hk : k.Within s.flags.size) :
  Walks Value.Within s (settled k)
  := by
  obtain ⟨chain, k₀, -, hk₀, -, hsettled⟩ := exists_settled hs hk
  rw [Walks, hsettled]
  refine ⟨.single (.handed hk hsettled), ?_⟩
  intro v s' hv
  cases hv
  rwa [size_marked]

/-- Looking up a name takes no step. -/
theorem walks_lookup {globals : Namespace} {env : Env} (hglobals : BindsWithin s.flags.size globals)
    (henv : BindsWithin s.flags.size env) (x : String) :
  Walks Value.Within s (lookup globals env x)
  := by
  have hfound : ∀ {env : List (String × Value)}, BindsWithin s.flags.size env →
      ∀ {v}, env.lookup x = some v → v.Within s.flags.size := by
    intro env henv v hv
    obtain ⟨before, after, rfl, -⟩ := List.lookup_eq_some_iff.mp hv
    exact henv (x, v) (by simp)
  unfold lookup
  cases henv' : env.lookup x with
  | some v => exact .pure (hfound henv henv')
  | none =>
    cases hglobals' : globals.lookup x with
    | some v => exact .pure (hfound hglobals hglobals')
    | none => exact .throw _

/-- Bindings stay within more flags. -/
theorem BindsWithin.mono {n m : Nat} (hnm : n ≤ m) {env : List (String × Value)}
    (h : BindsWithin n env) :
  BindsWithin m env
  := by
  intro b hb
  exact (h b hb).mono hnm

/-- Parameters are bound to what they are given. -/
theorem bindsWithin_bindings {n : Nat} {args : List Value} (h : ∀ a ∈ args, a.Within n)
    (params : List String) :
  BindsWithin n (bindings params args)
  := by
  intro b hb
  exact h b.2 (List.of_mem_zip hb).2

end Runs

mutual

/-- An expression goes by steps when calls do. -/
theorem walks_execWith {n : Nat} {call : Value → List Value → Run Value} (hcall : CallsWalk n call)
    (home : Nat) {globals : Namespace} (hglobals : BindsWithin n globals) :
    ∀ (code : Code) {env : Env} {s : State}, Ordered s.flags → n ≤ s.flags.size →
      BindsWithin s.flags.size env → Walks Value.Within s (execWith call home globals env code)
  | .constant m, env, s, _, _, _ => by
      rw [execWith]
      exact .pure (.number m)
  | .name x, env, s, _, hn, henv => by
      rw [execWith]
      exact walks_lookup (hglobals.mono hn) henv x
  | .lambda params body, env, s, hs, _, henv => by
      rw [execWith]
      apply walks_freshId.bind hs
      intro id s' _ hle _
      exact .pure (.closure id home none params body (henv.mono hle))
  | .negate a, env, s, hs, hn, henv => by
      rw [execWith]
      apply (walks_execWith hcall home hglobals a hs hn henv).bind hs
      intro v s' _ _ _
      apply Walks.attempt
      intro w hw
      obtain ⟨m, rfl⟩ := exists_number_of_negate hw
      exact .number m
  | .deny a, env, s, hs, hn, henv => by
      rw [execWith]
      apply (walks_execWith hcall home hglobals a hs hn henv).bind hs
      intro v s' _ _ _
      exact .pure (.number _)
  | .binary op a b, env, s, hs, hn, henv => by
      rw [execWith]
      apply (walks_execWith hcall home hglobals a hs hn henv).bind hs
      intro v s₁ hs₁ hle _
      apply (walks_execWith hcall home hglobals b hs₁ (Nat.le_trans hn hle)
        (henv.mono hle)).bind hs₁
      intro w s' _ _ _
      exact walks_apply op v w
  | .choose test conseq alt, env, s, hs, hn, henv => by
      rw [execWith]
      apply (walks_execWith hcall home hglobals test hs hn henv).bind hs
      intro decision s' hs' hle _
      split
      · exact walks_execWith hcall home hglobals conseq hs' (Nat.le_trans hn hle) (henv.mono hle)
      · exact walks_execWith hcall home hglobals alt hs' (Nat.le_trans hn hle) (henv.mono hle)
  | .call f args, env, s, hs, hn, henv => by
      rw [execWith]
      apply (walks_execWith hcall home hglobals f hs hn henv).bind hs
      intro function s₁ hs₁ hle hfunction
      apply (walks_execAll hcall home hglobals args hs₁ (Nat.le_trans hn hle)
        (henv.mono hle)).bind hs₁
      intro values s' hs' hle' hvalues
      exact hcall s' function values hs' (Nat.le_trans hn (Nat.le_trans hle hle'))
        (hfunction.mono hle') hvalues

/-- Some expressions go by steps when calls do. -/
theorem walks_execAll {n : Nat} {call : Value → List Value → Run Value} (hcall : CallsWalk n call)
    (home : Nat) {globals : Namespace} (hglobals : BindsWithin n globals) :
    ∀ (codes : List Code) {env : Env} {s : State}, Ordered s.flags → n ≤ s.flags.size →
      BindsWithin s.flags.size env →
        Walks (fun n vs => ∀ v ∈ vs, v.Within n) s (execAll call home globals env codes)
  | [], env, s, _, _, _ => by
      rw [execAll]
      exact .pure (List.forall_mem_nil _)
  | a :: rest, env, s, hs, hn, henv => by
      rw [execAll]
      apply (walks_execWith hcall home hglobals a hs hn henv).bind hs
      intro first s₁ hs₁ hle hfirst
      apply (walks_execAll hcall home hglobals rest hs₁ (Nat.le_trans hn hle)
        (henv.mono hle)).bind hs₁
      intro others s' _ hle' hothers
      exact .pure (List.forall_mem_cons.mpr ⟨hfirst.mono hle', hothers⟩)

end

/-- An entry goes by steps when calls do. -/
theorem walks_enter {n : Nat} {call : Value → List Value → Run Value} (hcall : CallsWalk n call)
    (home : Nat) {globals : Namespace} (hglobals : BindsWithin n globals) (e : Entry)
    {args : List Value} {k : Value} {s : State} (hs : Ordered s.flags) (hn : n ≤ s.flags.size)
    (hargs : ∀ a ∈ args, a.Within s.flags.size) (hk : k.Within s.flags.size) :
  Walks Value.Within s (enter call home globals e args k)
  := by
  have hall : ∀ a ∈ args ++ [k], a.Within s.flags.size := by
    intro a ha
    rcases List.mem_append.mp ha with ha | ha
    · exact hargs a ha
    · exact List.mem_singleton.mp ha ▸ hk
  have henv := bindsWithin_bindings hall (e.params ++ [e.k])
  unfold enter
  apply (walks_lookup (hglobals.mono hn) henv _).bind hs
  intro maker s₁ hs₁ hle₁ hmaker
  have hk₁ : ∀ a ∈ [k], a.Within s₁.flags.size := by
    intro a ha
    exact List.mem_singleton.mp ha ▸ hk.mono hle₁
  apply (hcall s₁ maker [k] hs₁ (Nat.le_trans hn hle₁) hmaker hk₁).bind hs₁
  intro flag s₂ hs₂ hle₂ hflag
  apply walks_freshId.bind hs₂
  intro id s₃ hs₃ hle₃ _
  have hle : s.flags.size ≤ s₃.flags.size := Nat.le_trans hle₁ (Nat.le_trans hle₂ hle₃)
  have henv₂ : BindsWithin s₃.flags.size
      ((e.flag, flag) :: bindings (e.params ++ [e.k]) (args ++ [k])) :=
    List.forall_mem_cons.mpr ⟨hflag.mono hle₃, henv.mono hle⟩
  apply walks_execWith hcall home hglobals _ hs₃ (Nat.le_trans hn hle)
  exact List.forall_mem_cons.mpr ⟨.closure id home _ _ _ henv₂, henv₂⟩

/-- Every call goes by steps, whatever is called. -/
theorem walks_call {n : Nat} {spaces : List Namespace} (hspaces : ∀ ns ∈ spaces, BindsWithin n ns)
    (fuel : Nat) :
  CallsWalk n (call spaces fuel)
  := by
  have hhome : ∀ home : Nat, BindsWithin n (spaces[home]?.getD []) := by
    intro home
    cases hns : spaces[home]? with
    | none => exact List.forall_mem_nil _
    | some ns => exact hspaces ns (List.mem_of_getElem? hns)
  induction fuel with
  | zero =>
    intro s f args _ _ _ _
    exact .throw _
  | succ fuel ih =>
    intro s f args hs hn hf hargs
    rw [call.eq_def]
    dsimp only
    split
    · rename_i id home own params body env
      split
      · cases hf with
        | closure _ _ _ _ _ henv =>
          apply walks_execWith ih home (hhome home) body hs hn
          intro b hb
          rcases List.mem_append.mp hb with hb | hb
          · rcases List.mem_append.mp hb with hb | hb
            · exact bindsWithin_bindings hargs params b hb
            · cases own with
              | none => contradiction
              | some x =>
                rw [List.mem_singleton.mp hb]
                exact .closure id home _ params body henv
          · exact henv b hb
      · exact .throw _
    · rename_i id home e identity
      cases hf with
      | entry _ _ _ hidentity =>
        split
        · exact walks_enter ih home (hhome home) e hs hn hargs hidentity
        · split
          · apply walks_enter ih home (hhome home) e hs hn
            · intro a ha
              exact hargs a ((List.dropLast_sublist args).subset ha)
            · cases hlast : args.getLast? with
              | none => exact .nothing
              | some k => exact hargs k (List.mem_of_getLast? hlast)
          · exact .throw _
    · exact .pure (hargs _ List.mem_cons_self)
    · exact walks_makeFlag (hargs _ List.mem_cons_self)
    · rename_i k value
      obtain ⟨hk, hrest⟩ := List.forall_mem_cons.mp hargs
      apply (walks_settled hs hk).bind hs
      intro k₀ s' hs' hle hk₀
      apply ih s' k₀ [value] hs' (Nat.le_trans hn hle) hk₀
      intro a ha
      exact (hrest a ha).mono hle
    · rename_i work index
      obtain ⟨hwork, hrest⟩ := List.forall_mem_cons.mp hargs
      have hdone : Walks (fun _ _ => True) s (isDone index) := ⟨.refl, fun _ _ _ => trivial⟩
      apply hdone.bind hs
      intro done s₁ hs₁ hle₁ _
      split
      · exact .pure (hwork.mono hle₁)
      · apply (ih s₁ work [] hs₁ (Nat.le_trans hn hle₁) (hwork.mono hle₁)
          (List.forall_mem_nil _)).bind hs₁
        intro next s₂ hs₂ hle₂ hnext
        apply ih s₂ _ _ hs₂ (Nat.le_trans hn (Nat.le_trans hle₁ hle₂)) (.helper _)
        apply List.forall_mem_cons.mpr ⟨hnext, _⟩
        intro a ha
        exact (hrest a ha).mono (Nat.le_trans hle₁ hle₂)
    · exact .throw _
    · exact walks_apply _ _ _
    · cases hf with
      | relay _ hamount hk =>
        apply walks_freshId.bind hs
        intro id s' _ hle _
        refine .pure (.handing id (hk.mono hle) ((hargs _ List.mem_cons_self).mono hle) ?_)
        intro a ha
        cases ha
        exact hamount.mono hle
    · cases hf with
      | handing _ hk hvalue _ =>
        apply ih s _ _ hs hn (.helper _)
        exact List.forall_mem_cons.mpr ⟨hk, List.forall_mem_singleton.mpr hvalue⟩
    · cases hf with
      | handing _ hk hvalue _ =>
        apply (walks_apply _ _ _).bind hs
        intro sum s' hs' hle hsum
        apply ih s' _ _ hs' (Nat.le_trans hn hle) (.helper _)
        exact List.forall_mem_cons.mpr ⟨hk.mono hle, List.forall_mem_singleton.mpr hsum⟩
    · rename_i id steps work
      cases hf with
      | delay _ _ hwork =>
        apply Walks.pure
        split
        · exact hwork
        · exact .delay id _ hwork
    · exact .throw _
    · exact .throw _

/-! ### Sequences of calls -/

/-- A move of a sequence of calls. A function is called, a helper or any other, with what there is by
then; the call comes to its end, fails or is cut short. Or a step is taken inside a call. -/
inductive Moves (s : State) : State → Prop
  | called {spaces : List Namespace} {f : Value} {args : List Value}
      (hspaces : ∀ ns ∈ spaces, BindsWithin s.flags.size ns) (hf : f.Within s.flags.size)
      (hargs : ∀ a ∈ args, a.Within s.flags.size) (fuel : Nat) :
      Moves s (ending (call spaces fuel f args s))
  | inside {s' : State} (h : Step s s') : Moves s s'

/-- The states that a sequence of calls comes to, between the calls and inside them. -/
abbrev Reaches : State → State → Prop :=
  Relation.ReflTransGen Moves

/-- Moves go by steps. -/
theorem Reaches.passes {s s' : State} (h : Reaches s s') (hordered : Ordered s.flags) :
  Passes s s'
  := by
  induction h with
  | refl => exact .refl
  | tail _ hmove ih =>
    apply ih.trans
    cases hmove with
    | called hspaces hf hargs fuel =>
      exact (walks_call hspaces fuel _ _ _ (ih.keeps hordered).2.1 (Nat.le_refl _) hf hargs).1
    | inside h => exact .single h

/-- At the start there is no flag. -/
theorem ordered_start : Ordered State.start.flags := by
  intro i f hf
  contradiction

/-- In every state that calls come to, a flag that is set and wraps a flag wraps one that is set;
what a flag wraps never changes, and it stays set once it is. Handing on a value sets the flags on
the chain of the continuation, which is finite, and no others; then it calls what is at the end of
the chain with the value, once, and ends as that call does, with those flags still set. -/
theorem flags_of_reaches {s : State} (hs : Reaches .start s) :
  Linked s.flags ∧ (∀ s', Reaches s s' → Kept s.flags s'.flags)
    ∧ ∀ k value : Value, k.Within s.flags.size → value.Within s.flags.size →
      ∃ chain k₀, Chain s.flags k chain k₀ ∧ (∀ i, k₀ ≠ .flag i)
        ∧ ∀ spaces, (∀ ns ∈ spaces, BindsWithin s.flags.size ns) → ∀ fuel,
          call spaces (fuel + 1) (.helper .applyK) [k, value] s
              = call spaces fuel k₀ [value] ⟨marked chain s.flags, s.made⟩
            ∧ ∀ i ∈ chain,
              (ending (call spaces fuel k₀ [value] ⟨marked chain s.flags, s.made⟩)).isDone i = true
  := by
  obtain ⟨-, hordered, hlinked⟩ := (hs.passes ordered_start).keeps ordered_start
  refine ⟨hlinked ?_, ?_, ?_⟩
  · intro i j hi
    contradiction
  · intro s' hs'
    exact ((hs'.passes hordered).keeps hordered).1
  · intro k value hk hvalue
    obtain ⟨chain, k₀, hchain, hk₀, hsettle, -⟩ := exists_settled hordered hk
    refine ⟨chain, k₀, hchain, hchain.ne_flag, ?_⟩
    intro spaces hspaces fuel
    constructor
    · rw [← callBy_usual, ← callBy_usual, callBy_applyK hsettle]
    · intro i hi
      -- the call of what is at the end of the chain keeps the flags as they are set
      have hsize := size_marked chain s.flags
      have hwalks := walks_call hspaces fuel ⟨marked chain s.flags, s.made⟩ k₀ [value]
        (hordered.marked chain) (Nat.le_of_eq hsize.symm) (hsize.symm ▸ hk₀)
        (List.forall_mem_singleton.mpr (hsize.symm ▸ hvalue))
      obtain ⟨f, hf⟩ := hchain.exists_of_mem hi
      have hset : (marked chain s.flags)[i]? = some ⟨f.k, true⟩ := by
        rw [getElem?_marked, hf]
        simp [hi]
      obtain ⟨done, hdone, himp⟩ := (hwalks.1.keeps (hordered.marked chain)).1 i _ hset
      rw [himp rfl] at hdone
      exact isDone_iff.mpr ⟨f.k, hdone⟩

/-- Three flags, of which the second wraps the first. -/
def threeFlags : State :=
  ⟨#[⟨.helper .identity, false⟩, ⟨.flag 0, false⟩, ⟨.helper .identity, false⟩], 0⟩

/-- A value that is handed to the second of three flags. -/
theorem flags_of_reaches_threeFlags :
  Reaches .start threeFlags ∧ ∃ chain k₀, Chain threeFlags.flags (.flag 1) chain k₀
    ∧ (∀ i, k₀ ≠ .flag i) ∧ ∀ fuel, call [] (fuel + 1) (.helper .applyK) [.flag 1, .nothing] threeFlags
      = call [] fuel k₀ [.nothing] ⟨marked chain threeFlags.flags, threeFlags.made⟩
  := by
  have hmake : ∀ (s : State) (k : Value), k.Within s.flags.size →
      Moves s ⟨s.flags.push ⟨k, false⟩, s.made⟩ := by
    intro s k hk
    exact @Moves.called s [] _ _ (List.forall_mem_nil _) (.helper .makeFlag)
      (List.forall_mem_singleton.mpr hk) 1
  have hreaches : Reaches .start threeFlags := by
    refine .tail (.tail (.tail .refl (hmake _ (.helper .identity) (.helper _)))
      (hmake _ (.flag 0) (.flag ?_)))
      (hmake _ (.helper .identity) (.helper _))
    decide
  obtain ⟨-, -, happly⟩ := flags_of_reaches hreaches
  obtain ⟨chain, k₀, hchain, hk₀, hcall⟩ := happly (.flag 1) .nothing (.flag (by decide)) .nothing
  exact ⟨hreaches, chain, k₀, hchain, hk₀, fun fuel => (hcall [] (List.forall_mem_nil _) fuel).1⟩

end Springboard.Machine
