import Springboard.Proofs.Chains

/-!
# Driving works to their end

A trampoline forces works until its flag is set. Here the works hold no call of their own: they are
values, suspensions that fail, suspensions that only wait, and suspensions that hand a value to a
continuation. A continuation in turn is a function from values to values, a flag, or a function that
gives back a suspension which hands a value to a further continuation. However flags wrap such
continuations, and those flags again, the trampoline comes to an end. It ends at the first step
whose chain of flags has the flag of the trampoline in it, and gives back what that step gave back.
-/

namespace Springboard.Machine

/-- The outcome of a call that is not cut short. -/
def Gives (spaces : List Namespace) (f : Value) (args : List Value) (s : State)
    (r : EStateM.Result Stop State Value) : Prop :=
  (∃ fuel, call spaces fuel f args s = r) ∧ ∀ s', r ≠ .error .outOfFuel s'

/-- Whether a value can be called without arguments. What cannot is no function, or it is one that
needs an argument. -/
def Value.isForceable : Value → Bool
  | .closure _ _ _ params _ _ => params.isEmpty
  | .entry _ _ code _ => code.params.isEmpty
  | .handing _ _ _ _ | .delay _ _ _ | .failing _ => true
  | _ => false

/-! ### Works and continuations -/

/-- A function that makes values of values: it has a value or fails, and touches no flag. -/
def MapsValues (spaces : List Namespace) (f : Value) : Prop :=
  f.isFunction = true ∧ ∀ v s, v.isFunction = false →
    ∃ r, Gives spaces f [v] s r ∧ (ending r).flags = s.flags
      ∧ ∀ u s', r = .ok u s' → u.isFunction = false

/-- A suspension that fails, and touches no flag. -/
def Fails (spaces : List Namespace) (w : Value) : Prop :=
  ∀ s, ∃ e s', Gives spaces w [] s (.error e s') ∧ s'.flags = s.flags

/-- A suspension that hands a value to a continuation, and touches no flag before. -/
def HandsTo (spaces : List Namespace) (k w : Value) : Prop :=
  ∃ v, v.isFunction = false ∧ ∀ s, ∃ s₁, s₁.flags = s.flags
    ∧ ∀ r, Gives spaces (.helper .applyK) [k, v] s₁ r → Gives spaces w [] s r

/-- A function that gives back a suspension which hands a value to a further continuation, unless
that fails before, and touches no flag. -/
def RelaysTo (spaces : List Namespace) (k f : Value) : Prop :=
  f.isFunction = true ∧ ∀ v s, v.isFunction = false →
    ∃ r, Gives spaces f [v] s r ∧ (ending r).flags = s.flags
      ∧ ∀ w s', r = .ok w s' → HandsTo spaces k w ∨ Fails spaces w

/-- Continuations in which all flags are among the first `n`. -/
inductive IsContinuation (spaces : List Namespace) (n : Nat) : Value → Prop
  | maps {f : Value} (h : MapsValues spaces f) : IsContinuation spaces n f
  | flag {i : Nat} (h : i < n) : IsContinuation spaces n (.flag i)
  | relays {k f : Value} (h : RelaysTo spaces k f) (hk : IsContinuation spaces n k) :
      IsContinuation spaces n f

/-- Works in which all flags are among the first `n`. -/
inductive IsWork (spaces : List Namespace) (n : Nat) : Value → Prop
  | value {w : Value} (h : w.isForceable = false) : IsWork spaces n w
  | fails {w : Value} (h : Fails spaces w) : IsWork spaces n w
  | waits {w : Value} {next : State → Value}
      (h : ∀ s, ∃ s', Gives spaces w [] s (.ok (next s) s') ∧ s'.flags = s.flags)
      (hnext : ∀ s, IsWork spaces n (next s)) : IsWork spaces n w
  | hands {k w : Value} (h : HandsTo spaces k w) (hk : IsContinuation spaces n k) :
      IsWork spaces n w

/-- Flags each of which wraps a continuation that was there before it. -/
def WrapContinuations (spaces : List Namespace) (flags : Array Flag) : Prop :=
  ∀ (i : Nat) (f : Flag), flags[i]? = some f → IsContinuation spaces i f.k

/-! ### What a trampoline does -/

/-- What forcing a work gives, and the chain of flags that are set on the way: that of the
continuation which the step hands a value to, or none if it does not do so. -/
inductive Forced (spaces : List Namespace) (s : State) (w : Value) :
    List Nat → EStateM.Result Stop State Value → Prop
  | alone {r : EStateM.Result Stop State Value} (h : Gives spaces w [] s r)
      (hflags : (ending r).flags = s.flags) : Forced spaces s w [] r
  | handing {k v k₀ : Value} {s₁ : State} {chain : List Nat}
      {r : EStateM.Result Stop State Value} (h : Gives spaces w [] s r)
      (hs₁ : s₁.flags = s.flags) (hr : Gives spaces (.helper .applyK) [k, v] s₁ r)
      (hchain : Chain s.flags k chain k₀) : Forced spaces s w chain r

/-- How a trampoline for the flag `f` goes from a state and a work to its outcome. It gives back a
work as it is when the flag is set. Before that it refuses what cannot be forced, and forces anything
else, once. If that fails, so does the trampoline, and the flag is set just when it was in the chain
of the step. Otherwise the trampoline ends with the step if the flag was in its chain, and else goes
on with what it gave back. -/
inductive Driven (spaces : List Namespace) (f : Nat) :
    State → Value → EStateM.Result Stop State Value → Prop
  | finished {s : State} {w : Value} (hf : s.isDone f = true) : Driven spaces f s w (.ok w s)
  | refused {s : State} {w : Value} (hf : s.isDone f = false) (hw : w.isForceable = false) :
      Driven spaces f s w (.error (.failed (.fault .mismatch)) s)
  | failed {s s' : State} {w : Value} {chain : List Nat} {e : Stop} (hf : s.isDone f = false)
      (h : Forced spaces s w chain (.error e s')) (hs' : s'.isDone f = true ↔ f ∈ chain) :
      Driven spaces f s w (.error e s')
  | ended {s s' : State} {w u : Value} {chain : List Nat} (hf : s.isDone f = false)
      (h : Forced spaces s w chain (.ok u s')) (hchain : f ∈ chain) :
      Driven spaces f s w (.ok u s')
  | bounced {s s' : State} {w u : Value} {chain : List Nat} {r : EStateM.Result Stop State Value}
      (hf : s.isDone f = false) (h : Forced spaces s w chain (.ok u s')) (hchain : f ∉ chain)
      (hs' : s'.isDone f = false) (hrest : Driven spaces f s' u r) : Driven spaces f s w r

section Outcomes

variable {spaces : List Namespace} {s s' : State} {f : Nat} {w : Value}
variable {r : EStateM.Result Stop State Value}

/-- A call that is not cut short has its outcome with more fuel too. -/
theorem Gives.exists_fuel {g : Value} {args : List Value} (h : Gives spaces g args s r) :
  ∃ fuel, ∀ n, fuel ≤ n → call spaces n g args s = r
  := by
  obtain ⟨⟨fuel, hfuel⟩, hr⟩ := h
  refine ⟨fuel, ?_⟩
  intro n hn
  obtain ⟨e, s', he, hcut⟩ | heq := callBy_fuel .usual spaces hn g args s
  · rw [callBy_usual, hfuel] at hcut
    exact absurd (he ▸ hcut) (hr s')
  · rw [callBy_usual, callBy_usual, hfuel] at heq
    exact heq.symm

/-- Calls that agree from some fuel on have the same outcome. -/
theorem Gives.of_eq {g g' : Value} {args args' : List Value} (h : Gives spaces g args s r)
    (heq : ∀ fuel, call spaces (fuel + 1) g' args' s' = call spaces fuel g args s) :
  Gives spaces g' args' s' r
  := by
  obtain ⟨⟨fuel, hfuel⟩, hr⟩ := h
  exact ⟨⟨fuel + 1, (heq fuel).trans hfuel⟩, hr⟩

/-- A trampoline whose flag is set gives back its work. -/
theorem gives_of_isDone (spaces : List Namespace) (hf : s.isDone f = true) (w : Value) :
  Gives spaces (.helper .trampoline) [w, .flag f] s (.ok w s)
  := by
  have hdone : isDone f s = .ok true s := congrArg (EStateM.Result.ok · s) hf
  constructor
  · refine ⟨1, ?_⟩
    rw [call]
    exact bind_of_ok hdone
  · intro s' h
    contradiction

/-- What cannot be called without arguments fails when it is. -/
theorem gives_of_not_isForceable (spaces : List Namespace) (hw : w.isForceable = false)
    (s : State) :
  Gives spaces w [] s (.error (.failed (.fault .mismatch)) s)
  := by
  constructor
  · refine ⟨1, ?_⟩
    cases w with
    | closure id home own params body env =>
      cases params with
      | nil => contradiction
      | cons x params => rfl
    | entry id home code identity =>
      rw [call.eq_def]
      dsimp only
      have hlength : code.params.length ≠ 0 := by
        intro h
        rw [List.length_eq_zero_iff] at h
        rw [Value.isForceable, h] at hw
        contradiction
      rw [if_neg (by simp only [List.length_nil]; omega),
        if_neg (by simp only [List.length_nil]; omega)]
      rfl
    | handing id k value amount => contradiction
    | delay id steps work => contradiction
    | failing id => contradiction
    | helper h => cases h <;> rfl
    | _ => rfl
  · intro s' h
    injection h
    contradiction

/-- A trampoline whose flag is not set forces its work and goes on with what that gives. -/
theorem call_trampoline (hf : s.isDone f = false) (fuel : Nat) :
  call spaces (fuel + 1) (.helper .trampoline) [w, .flag f] s
    = (call spaces fuel w [] >>= fun next =>
        call spaces fuel (.helper .trampoline) [next, .flag f]) s
  := by
  have hdone : isDone f s = .ok false s := congrArg (EStateM.Result.ok · s) hf
  rw [call]
  exact bind_of_ok hdone

/-- A trampoline fails when forcing its work does. -/
theorem gives_of_forced_error {e : Stop} (hf : s.isDone f = false)
    (hw : Gives spaces w [] s (.error e s')) :
  Gives spaces (.helper .trampoline) [w, .flag f] s (.error e s')
  := by
  obtain ⟨⟨fuel, hfuel⟩, hr⟩ := hw
  refine ⟨⟨fuel + 1, ?_⟩, hr⟩
  rw [call_trampoline hf, bind_of_error hfuel]

/-- A trampoline goes on with what forcing its work gives. -/
theorem gives_of_forced {u : Value} (hf : s.isDone f = false)
    (hw : Gives spaces w [] s (.ok u s'))
    (hrest : Gives spaces (.helper .trampoline) [u, .flag f] s' r) :
  Gives spaces (.helper .trampoline) [w, .flag f] s r
  := by
  obtain ⟨n, hn⟩ := hw.exists_fuel
  obtain ⟨m, hm⟩ := hrest.exists_fuel
  refine ⟨⟨max n m + 1, ?_⟩, hrest.2⟩
  rw [call_trampoline hf, bind_of_ok (hn _ (Nat.le_max_left n m)), hm _ (Nat.le_max_right n m)]

/-- Handing on a value sets the chain of the continuation and calls what is at its end. -/
theorem gives_applyK {k k₀ v : Value} {chain : List Nat} (hchain : Chain s.flags k chain k₀)
    (hlength : chain.length ≤ s.flags.size)
    (h : Gives spaces k₀ [v] ⟨marked chain s.flags, s.made⟩ r) :
  Gives spaces (.helper .applyK) [k, v] s r
  := by
  apply h.of_eq
  intro fuel
  rw [← callBy_usual, ← callBy_usual,
    callBy_applyK (settle_eq_marked hchain hlength fun _ => rfl)]

end Outcomes

/-! ### Trampolines come to an end -/

/-- The trampoline for the flag `f` comes to an end with the work. -/
def Finishes (spaces : List Namespace) (f : Nat) (s : State) (w : Value) : Prop :=
  ∃ r, Gives spaces (.helper .trampoline) [w, .flag f] s r ∧ Driven spaces f s w r

/-- In every state whose flags wrap what the given ones wrap, the trampoline for the flag `f` comes
to an end with every suspension that hands a value to `k`. -/
def FinishesAt (spaces : List Namespace) (f : Nat) (flags : Array Flag) (k : Value) : Prop :=
  ∀ s w, (∀ i : Nat, s.flags[i]?.map Flag.k = flags[i]?.map Flag.k) → HandsTo spaces k w →
    Finishes spaces f s w

section Driving

variable {spaces : List Namespace} {s s' : State} {f : Nat} {w : Value} {flags : Array Flag}

/-- A trampoline for a flag that is set is at its end. -/
theorem finishes_of_isDone (hf : s.isDone f = true) (w : Value) : Finishes spaces f s w :=
  ⟨_, gives_of_isDone spaces hf w, .finished hf⟩

/-- A trampoline ends where its work cannot be forced. -/
theorem finishes_of_not_isForceable (hw : w.isForceable = false) (s : State) :
  Finishes spaces f s w
  := by
  cases hf : s.isDone f with
  | true => exact finishes_of_isDone hf w
  | false =>
    exact ⟨_, gives_of_forced_error hf (gives_of_not_isForceable spaces hw s), .refused hf hw⟩

/-- A flag is as it was where no flag is touched. -/
theorem isDone_of_flags (h : s'.flags = s.flags) (f : Nat) : s'.isDone f = s.isDone f := by
  rw [State.isDone, State.isDone, h]

/-- A trampoline ends where its work fails. -/
theorem finishes_of_fails (hw : Fails spaces w) (s : State) : Finishes spaces f s w := by
  cases hf : s.isDone f with
  | true => exact finishes_of_isDone hf w
  | false =>
    obtain ⟨e, s', hs', hflags⟩ := hw s
    have hforced : Forced spaces s w [] (.error e s') := .alone hs' hflags
    refine ⟨_, gives_of_forced_error hf hs', .failed hf hforced ?_⟩
    rw [isDone_of_flags hflags, hf]
    simp

/-- What is no function cannot be forced. -/
theorem not_isForceable_of_isFunction (hw : w.isFunction = false) : w.isForceable = false := by
  cases w with
  | number n => rfl
  | nothing => rfl
  | flag i => rfl
  | _ => contradiction

/-- A flag that was not set is set after a step just when it was in the chain of the step. -/
theorem isDone_marked {chain : List Nat} {k k₀ : Value} (hchain : Chain s.flags k chain k₀)
    (hf : s.isDone f = false) (hs' : s'.flags = marked chain s.flags) :
  s'.isDone f = true ↔ f ∈ chain
  := by
  rw [isDone_iff, hs', getElem?_marked]
  constructor
  · rintro ⟨k, hk⟩
    obtain ⟨g, hg, heq⟩ := Option.map_eq_some_iff.mp hk
    injection heq with _ hdone
    have hg' : g.done = false := by
      rw [State.isDone, hg] at hf
      exact hf
    rw [hg', Bool.false_or] at hdone
    exact List.contains_iff_mem.mp hdone
  · intro hmem
    obtain ⟨g, hg⟩ := hchain.exists_of_mem hmem
    refine ⟨g.k, ?_⟩
    rw [hg]
    simp [hmem]

/-- Where flags wrap the same there are as many of them. -/
theorem size_eq_of_same {flags' : Array Flag}
    (h : ∀ i : Nat, flags'[i]?.map Flag.k = flags[i]?.map Flag.k) :
  flags'.size = flags.size
  := by
  have hmap : flags'.map Flag.k = flags.map Flag.k := by
    apply Array.ext_getElem?
    intro i
    rw [Array.getElem?_map, Array.getElem?_map, h i]
  simpa using congrArg Array.size hmap

/-- The chain of a continuation is the same where flags wrap the same. -/
theorem Chain.congr {flags' : Array Flag} {k k₀ : Value} {chain : List Nat}
    (h : Chain flags k chain k₀)
    (hsame : ∀ i : Nat, flags'[i]?.map Flag.k = flags[i]?.map Flag.k) :
  Chain flags' k chain k₀
  := by
  induction h with
  | nil hk => exact .nil hk
  | @cons i f chain k hf _ ih =>
    have hi := hsame i
    rw [hf] at hi
    obtain ⟨f', hf', hk⟩ := Option.map_eq_some_iff.mp hi
    exact .cons hf' (hk ▸ ih)

/-- A trampoline ends if a chain leads to a function of values, or to a function that relays to a
continuation with which it ends. -/
theorem finishesAt_of_chain {k k₀ : Value} {chain : List Nat} (hchain : Chain flags k chain k₀)
    (hlength : chain.length ≤ flags.size)
    (hk₀ : MapsValues spaces k₀ ∨ ∃ k', RelaysTo spaces k' k₀ ∧ FinishesAt spaces f flags k') :
  FinishesAt spaces f flags k
  := by
  intro s w hsame hw
  cases hf : s.isDone f with
  | true => exact finishes_of_isDone hf w
  | false =>
    obtain ⟨v, hv, hstep⟩ := hw
    obtain ⟨s₁, hs₁, hforce⟩ := hstep s
    have hchain' : Chain s.flags k chain k₀ := hchain.congr hsame
    have hsize := size_eq_of_same hsame
    -- the step sets the chain and calls `k₀`, which touches no flag
    have hforced : ∀ r, Gives spaces k₀ [v] ⟨marked chain s₁.flags, s₁.made⟩ r →
        Gives spaces w [] s r ∧ Forced spaces s w chain r := by
      intro r hr
      have happly := gives_applyK (hs₁ ▸ hchain') (by rw [hs₁, hsize]; exact hlength) hr
      exact ⟨hforce r happly, .handing (hforce r happly) hs₁ happly hchain'⟩
    obtain ⟨r, hr, hflags, hvalue⟩ : ∃ r, Gives spaces k₀ [v] ⟨marked chain s₁.flags, s₁.made⟩ r
        ∧ (ending r).flags = marked chain s.flags
        ∧ ∀ u s', r = .ok u s' → f ∉ chain → Finishes spaces f s' u := by
      rw [hs₁]
      obtain ⟨-, hmaps⟩ | ⟨k', ⟨-, hrelays⟩, hfinishes⟩ := hk₀
      · obtain ⟨r, hr, hflags, hvalue⟩ := hmaps v ⟨marked chain s.flags, s₁.made⟩ hv
        refine ⟨r, hr, hflags, ?_⟩
        intro u s' hu _
        exact finishes_of_not_isForceable (not_isForceable_of_isFunction (hvalue u s' hu)) s'
      · obtain ⟨r, hr, hflags, hnext⟩ := hrelays v ⟨marked chain s.flags, s₁.made⟩ hv
        refine ⟨r, hr, hflags, ?_⟩
        intro u s' hu _
        obtain hhands | hfails := hnext u s' hu
        · apply hfinishes s' u _ hhands
          intro i
          rw [hu] at hflags
          have hs' : s'.flags = marked chain s.flags := hflags
          rw [hs', getElem?_marked, Option.map_map, ← hsame i]
          rfl
        · exact finishes_of_fails hfails s'
    obtain ⟨hgives, hforced⟩ := hforced r hr
    cases r with
    | error e s' =>
      exact ⟨_, gives_of_forced_error hf hgives,
        .failed hf hforced (isDone_marked hchain' hf hflags)⟩
    | ok u s' =>
      by_cases hmem : f ∈ chain
      · have hdone := (isDone_marked hchain' hf hflags).mpr hmem
        exact ⟨_, gives_of_forced hf hgives (gives_of_isDone spaces hdone u),
          .ended hf hforced hmem⟩
      · have hdone : s'.isDone f = false := by
          have hflags : s'.flags = marked chain s.flags := hflags
          rw [← Bool.not_eq_true, isDone_marked hchain' hf hflags]
          exact hmem
        obtain ⟨r, hr, hdriven⟩ := hvalue u s' rfl hmem
        exact ⟨r, gives_of_forced hf hgives hr, .bounced hf hforced hmem hdone hdriven⟩

/-- From every continuation a chain leads to a function of values, or to a function that relays to a
continuation with which the trampoline ends. -/
theorem exists_landing (hflags : WrapContinuations spaces flags) (f : Nat) {n : Nat}
    (hn : n ≤ flags.size) {k : Value} (hk : IsContinuation spaces n k) :
  ∃ chain k₀, Chain flags k chain k₀ ∧ chain.length ≤ n
    ∧ (MapsValues spaces k₀ ∨ ∃ k', RelaysTo spaces k' k₀ ∧ FinishesAt spaces f flags k')
  := by
  -- a flag wraps a continuation with fewer flags, a relay goes on to a smaller one with as many
  induction n using Nat.strongRecOn generalizing k with
  | ind n ih =>
    have hne : ∀ {g : Value}, g.isFunction = true → ∀ i, g ≠ .flag i := by
      rintro g hg i rfl
      contradiction
    induction hk with
    | maps h => exact ⟨[], _, .nil (hne h.1), Nat.zero_le n, .inl h⟩
    | @flag i hi =>
      obtain ⟨g, hg⟩ : ∃ g, flags[i]? = some g :=
        ⟨_, Array.getElem?_eq_getElem (Nat.lt_of_lt_of_le hi hn)⟩
      obtain ⟨chain, k₀, hchain, hlength, hk₀⟩ :=
        ih i hi (Nat.le_trans (Nat.le_of_lt hi) hn) (hflags i g hg)
      exact ⟨i :: chain, k₀, .cons hg hchain, Nat.lt_of_le_of_lt hlength hi, hk₀⟩
    | relays h _ ihk =>
      obtain ⟨chain, k₀, hchain, hlength, hk₀⟩ := ihk
      have hfinishes := finishesAt_of_chain hchain (Nat.le_trans hlength hn) hk₀
      exact ⟨[], _, .nil (hne h.1), Nat.zero_le n, .inr ⟨_, h, hfinishes⟩⟩

/-- A trampoline comes to an end with every work. -/
theorem finishes_of_isWork (hflags : WrapContinuations spaces flags) (f : Nat)
    (hw : IsWork spaces flags.size w) (s : State)
    (hsame : ∀ i : Nat, s.flags[i]?.map Flag.k = flags[i]?.map Flag.k) :
  Finishes spaces f s w
  := by
  induction hw generalizing s with
  | value h => exact finishes_of_not_isForceable h s
  | fails h => exact finishes_of_fails h s
  | @waits w next h _ ih =>
    cases hf : s.isDone f with
    | true => exact finishes_of_isDone hf w
    | false =>
      obtain ⟨s', hs', hunchanged⟩ := h s
      obtain ⟨r, hr, hdriven⟩ := ih s s' (hunchanged ▸ hsame)
      have hforced : Forced spaces s w [] (.ok (next s) s') := .alone hs' hunchanged
      refine ⟨r, gives_of_forced hf hs' hr, .bounced hf hforced (List.not_mem_nil) ?_ hdriven⟩
      rw [isDone_of_flags hunchanged, hf]
  | hands h hk =>
    obtain ⟨chain, k₀, hchain, hlength, hk₀⟩ := exists_landing hflags f (Nat.le_refl _) hk
    exact finishesAt_of_chain hchain hlength hk₀ s _ hsame h

end Driving

/-- Whatever flags wrap, and whichever of them are set, a trampoline for a flag comes to an end with
every work, and goes as a trampoline should: it stops at the right step. -/
theorem trampoline_stops {spaces : List Namespace} {s : State}
    (hs : WrapContinuations spaces s.flags) (f : Nat) {w : Value}
    (hw : IsWork spaces s.flags.size w) :
  ∃ r, Gives spaces (.helper .trampoline) [w, .flag f] s r ∧ Driven spaces f s w r
  := by
  exact finishes_of_isWork hs f hw s fun _ => rfl

/-! ### The works that come with the machine -/

section Works

variable (spaces : List Namespace)

/-- The identity is a function of values. -/
theorem mapsValues_identity : MapsValues spaces (.helper .identity) := by
  refine ⟨rfl, ?_⟩
  intro v s hv
  refine ⟨.ok v s, ⟨⟨1, rfl⟩, ?_⟩, rfl, ?_⟩
  · intro s' h
    contradiction
  · intro u s' h
    cases h
    exact hv

/-- The function that adds an amount is a function of values. -/
theorem mapsValues_adder (id : Nat) (amount : Value) : MapsValues spaces (.adder id amount) := by
  refine ⟨rfl, ?_⟩
  intro v s _
  have hcall : call spaces 1 (.adder id amount) [v] s
      = attempt (BinaryOp.add.apply v amount) s := rfl
  cases hsum : BinaryOp.add.apply v amount with
  | error e =>
    rw [hsum] at hcall
    refine ⟨_, ⟨⟨1, hcall⟩, ?_⟩, rfl, ?_⟩
    · intro s' h
      injection h
      contradiction
    · intro u s' h
      contradiction
  | ok u =>
    rw [hsum] at hcall
    obtain ⟨n, rfl⟩ := exists_number_of_apply hsum
    refine ⟨_, ⟨⟨1, hcall⟩, ?_⟩, rfl, ?_⟩
    · intro s' h
      contradiction
    · intro u s' h
      cases h
      rfl

/-- The suspension that fails. -/
theorem fails_failing (id : Nat) : Fails spaces (.failing id) := by
  intro s
  refine ⟨_, s, ⟨⟨1, rfl⟩, ?_⟩, rfl⟩
  intro s' h
  injection h
  contradiction

/-- The suspension that hands on a value. -/
theorem handsTo_handing (id : Nat) (k : Value) {v : Value} (hv : v.isFunction = false) :
  HandsTo spaces k (.handing id k v none)
  := by
  refine ⟨v, hv, ?_⟩
  intro s
  refine ⟨s, rfl, ?_⟩
  intro r hr
  exact hr.of_eq fun fuel => rfl

/-- The suspension that hands on a sum, or fails if there is none. -/
theorem handsTo_or_fails_handing (id : Nat) (k v amount : Value) :
  HandsTo spaces k (.handing id k v (some amount)) ∨ Fails spaces (.handing id k v (some amount))
  := by
  have hcall : ∀ fuel s, call spaces (fuel + 1) (.handing id k v (some amount)) [] s
      = (attempt (BinaryOp.add.apply v amount) >>= fun sum =>
          call spaces fuel (.helper .applyK) [k, sum]) s := fun fuel s => rfl
  cases hsum : BinaryOp.add.apply v amount with
  | error e =>
    right
    intro s
    refine ⟨.failed (.fault e), s, ⟨⟨1, ?_⟩, ?_⟩, rfl⟩
    · rw [hcall, hsum]
      rfl
    · intro s' h
      injection h
      contradiction
  | ok u =>
    left
    obtain ⟨n, rfl⟩ := exists_number_of_apply hsum
    refine ⟨.number n, rfl, ?_⟩
    intro s
    refine ⟨s, rfl, ?_⟩
    intro r hr
    apply hr.of_eq
    intro fuel
    rw [hcall, hsum]
    rfl

/-- The function that suspends handing on a sum. -/
theorem relaysTo_relay (id : Nat) (amount k : Value) :
  RelaysTo spaces k (.relay id amount k)
  := by
  refine ⟨rfl, ?_⟩
  intro v s _
  refine ⟨.ok (.handing s.made k v (some amount)) ⟨s.flags, s.made + 1⟩, ⟨⟨1, rfl⟩, ?_⟩, rfl, ?_⟩
  · intro s' h
    contradiction
  · intro w s' h
    cases h
    apply handsTo_or_fails_handing

/-- A suspension that waits for some steps before it becomes a work. -/
theorem isWork_delay {n : Nat} {work : Value} (hwork : IsWork spaces n work) (id steps : Nat) :
  IsWork spaces n (.delay id steps work)
  := by
  have hforce : ∀ steps s, Gives spaces (.delay id steps work) [] s
      (.ok (if steps ≤ 1 then work else .delay id (steps - 1) work) s) := by
    intro steps s
    refine ⟨⟨1, rfl⟩, ?_⟩
    intro s' h
    contradiction
  induction steps with
  | zero =>
    apply IsWork.waits fun s => ⟨s, hforce 0 s, rfl⟩
    intro s
    exact hwork
  | succ steps ih =>
    apply IsWork.waits fun s => ⟨s, hforce (steps + 1) s, rfl⟩
    intro s
    split
    · exact hwork
    · exact ih

end Works

/-- Three flags: the first wraps the identity, the second relays to the first, and the third wraps
the second. -/
def relayedFlags : State :=
  ⟨#[⟨.helper .identity, false⟩, ⟨.relay 0 (.number (.int 1)) (.flag 0), false⟩,
    ⟨.flag 1, false⟩], 2⟩

/-- A work that waits twice and then hands a value to the third of these flags. -/
def relayedWork : Value :=
  .delay 1 2 (.handing 1 (.flag 2) (.number (.int 5)) none)

/-- A trampoline that bounces through three flags. -/
theorem trampoline_stops_relayedWork :
  WrapContinuations [] relayedFlags.flags ∧ IsWork [] relayedFlags.flags.size relayedWork
    ∧ ∃ r, Gives [] (.helper .trampoline) [relayedWork, .flag 0] relayedFlags r
      ∧ Driven [] 0 relayedFlags relayedWork r
  := by
  have hflags : WrapContinuations [] relayedFlags.flags := by
    intro i f hf
    rcases i with _ | _ | _ | i
    · cases hf
      exact .maps (mapsValues_identity [])
    · cases hf
      exact .relays (relaysTo_relay [] _ _ _) (.flag (by decide))
    · cases hf
      exact .flag (by decide)
    · contradiction
  have hwork : IsWork [] relayedFlags.flags.size relayedWork := by
    apply isWork_delay
    exact .hands (handsTo_handing [] 1 (.flag 2) rfl) (.flag (by decide))
  exact ⟨hflags, hwork, trampoline_stops hflags 0 hwork⟩

end Springboard.Machine
