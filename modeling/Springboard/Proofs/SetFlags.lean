import Springboard.Proofs.Tracking

/-!
# Flags that are set stay set

Whatever a computation of the machine does, it unsets no flag: flags are made unset, and handing on
a value sets those on its way. This holds of all code and all values, also of those that no program
has made.
-/

namespace Springboard.Machine

/-- Computations after which the flags that were set are still set. -/
def KeepsSet {α : Type} (x : Run α) : Prop :=
  ∀ st a st', x st = .ok a st' → ∀ i, st.isDone i = true → st'.isDone i = true

section KeepsSet

variable {α β : Type}

/-- A flag is set if it is there and says so. -/
theorem isDone_iff {st : State} {i : Nat} :
  st.isDone i = true ↔ ∃ k, st.flags[i]? = some ⟨k, true⟩
  := by
  unfold State.isDone
  cases st.flags[i]? with
  | none => simp
  | some f =>
    obtain ⟨k, done⟩ := f
    simp

/-- What leaves the flags alone keeps them set. -/
theorem keepsSet_of_flags {x : Run α} (h : ∀ st a st', x st = .ok a st' → st'.flags = st.flags) :
  KeepsSet x
  := by
  intro st a st' ha i hi
  rw [isDone_iff, h st a st' ha]
  exact isDone_iff.mp hi

/-- A step that fails keeps the flags set. -/
theorem keepsSet_throw (e : Stop) : KeepsSet (throw e : Run α) := by
  intro st a st' ha
  exact absurd ha throw_ne_ok

/-- Giving back a value keeps the flags set. -/
theorem keepsSet_pure (a : α) : KeepsSet (pure a : Run α) := by
  apply keepsSet_of_flags
  intro st b st' hb
  obtain ⟨-, rfl⟩ := pure_eq_ok.mp hb
  rfl

/-- A step that may fault keeps the flags set. -/
theorem keepsSet_attempt (x : Except Fault α) : KeepsSet (attempt x) := by
  apply keepsSet_of_flags
  intro st b st' hb
  obtain ⟨-, rfl⟩ := attempt_eq_ok.mp hb
  rfl

/-- Looking up a name keeps the flags set. -/
theorem keepsSet_lookup (globals : Namespace) (env : Env) (x : String) :
  KeepsSet (lookup globals env x)
  := by
  apply keepsSet_of_flags
  intro st b st' hb
  obtain ⟨-, rfl⟩ := lookup_eq_ok.mp hb
  rfl

/-- Numbering a function keeps the flags set. -/
theorem keepsSet_freshId : KeepsSet freshId := by
  apply keepsSet_of_flags
  intro st b st' hb
  cases hb
  rfl

/-- Sequences keep the flags set when their parts do. -/
theorem KeepsSet.bind {x : Run α} {f : α → Run β} (hx : KeepsSet x) (hf : ∀ a, KeepsSet (f a)) :
  KeepsSet (x >>= f)
  := by
  intro st b st' hb i hi
  obtain ⟨a, st₁, ha, hb⟩ := bind_eq_ok.mp hb
  exact hf a st₁ b st' hb i (hx st a st₁ ha i hi)

/-- Making a flag keeps the others set. -/
theorem keepsSet_makeFlag (k : Value) : KeepsSet (makeFlag k) := by
  intro st a st' ha i hi
  cases ha
  obtain ⟨k', hk'⟩ := isDone_iff.mp hi
  obtain ⟨hlt, -⟩ := Array.getElem?_eq_some_iff.mp hk'
  apply isDone_iff.mpr
  use k'
  rw [Array.getElem?_push, if_neg (Nat.ne_of_lt hlt)]
  exact hk'

/-- Settling sets flags and unsets none. -/
theorem isDone_of_settle
    {steps : Nat} {flags flags' : Array Flag} {k k' : Value}
    (h : settle steps flags k = (flags', k')) {made i : Nat}
    (hi : State.isDone ⟨flags, made⟩ i = true) :
  State.isDone ⟨flags', made⟩ i = true
  := by
  induction steps generalizing flags k with
  | zero =>
    cases h
    exact hi
  | succ steps ih =>
    cases k with
    | flag index =>
      rw [settle] at h
      cases hf : flags[index]? with
      | none =>
        rw [hf] at h
        cases h
        exact hi
      | some f =>
        rw [hf] at h
        apply ih h
        obtain ⟨k, hk⟩ := isDone_iff.mp hi
        obtain ⟨hlt, -⟩ := Array.getElem?_eq_some_iff.mp hf
        apply isDone_iff.mpr
        dsimp only
        rw [Array.getElem?_setIfInBounds, if_pos hlt]
        split
        · exact ⟨f.k, rfl⟩
        · exact ⟨k, hk⟩
    | _ =>
      cases h
      exact hi

/-- Settling a continuation keeps the flags set. -/
theorem keepsSet_settled (k : Value) : KeepsSet (settled k) := by
  intro st a st' ha i hi
  cases ha
  exact isDone_of_settle rfl hi

end KeepsSet

mutual

/-- An expression keeps the flags set when calls do. -/
theorem keepsSet_execBy
    (rule : Rule) {call : Value → List Value → Run Value}
    (hcall : ∀ f args, KeepsSet (call f args)) (home : Nat) (globals : Namespace) (env : Env) :
    ∀ code, KeepsSet (execBy rule call home globals env code)
  | .constant _ => by
      rw [execBy]
      apply keepsSet_pure
  | .name _ => by
      rw [execBy]
      apply keepsSet_lookup
  | .lambda _ _ => by
      rw [execBy]
      apply keepsSet_freshId.bind
      intro id
      apply keepsSet_pure
  | .negate a => by
      rw [execBy]
      apply (keepsSet_execBy rule hcall home globals env a).bind
      intro v
      apply keepsSet_attempt
  | .deny a => by
      rw [execBy]
      apply (keepsSet_execBy rule hcall home globals env a).bind
      intro v
      apply keepsSet_pure
  | .binary op a b => by
      rw [execBy]
      apply (keepsSet_execBy rule hcall home globals env a).bind
      intro v
      apply (keepsSet_execBy rule hcall home globals env b).bind
      intro w
      apply keepsSet_attempt
  | .choose test conseq alt => by
      rw [execBy]
      apply (keepsSet_execBy rule hcall home globals env test).bind
      intro decision
      split
      · apply keepsSet_execBy rule hcall home globals env conseq
      · apply keepsSet_execBy rule hcall home globals env alt
  | .call f args => by
      rw [execBy]
      apply (keepsSet_execBy rule hcall home globals env f).bind
      intro function
      apply (keepsSet_execAllBy rule hcall home globals env args).bind
      intro values
      apply hcall

/-- Some expressions keep the flags set when calls do. -/
theorem keepsSet_execAllBy
    (rule : Rule) {call : Value → List Value → Run Value}
    (hcall : ∀ f args, KeepsSet (call f args)) (home : Nat) (globals : Namespace) (env : Env) :
    ∀ codes, KeepsSet (execAllBy rule call home globals env codes)
  | [] => by
      rw [execAllBy]
      apply keepsSet_pure
  | a :: rest => by
      rw [execAllBy]
      apply (keepsSet_execBy rule hcall home globals env a).bind
      intro first
      apply (keepsSet_execAllBy rule hcall home globals env rest).bind
      intro others
      apply keepsSet_pure

end

/-- An entry keeps the flags set when calls do. -/
theorem keepsSet_enter
    {call : Value → List Value → Run Value} (hcall : ∀ f args, KeepsSet (call f args))
    (home : Nat) (globals : Namespace) (e : Entry) (args : List Value) (k : Value) :
  KeepsSet (enter call home globals e args k)
  := by
  unfold enter
  apply (keepsSet_lookup _ _ _).bind
  intro maker
  apply (hcall maker [k]).bind
  intro flag
  apply keepsSet_freshId.bind
  intro id
  rw [← execBy_apply]
  apply keepsSet_execBy _ hcall

/-- No call unsets a flag. -/
theorem keepsSet_callBy (w : Watch) (spaces : List Namespace) (n : Nat) (f : Value)
    (args : List Value) :
  KeepsSet (callBy w spaces n f args)
  := by
  induction n generalizing f args with
  | zero => exact keepsSet_throw _
  | succ n ih =>
    have hdone : ∀ i, KeepsSet (isDone i) := by
      intro i
      apply keepsSet_of_flags
      intro st b st' hb
      cases hb
      rfl
    rw [callBy.eq_def]
    dsimp only
    split
    · split
      · apply keepsSet_execBy _ ih
      · apply keepsSet_throw
    · split
      · apply keepsSet_enter ih
      · split
        · apply keepsSet_enter ih
        · apply keepsSet_throw
    · apply keepsSet_pure
    · apply keepsSet_makeFlag
    · apply (keepsSet_settled _).bind
      intro k
      apply ih
    · apply (hdone _).bind
      intro done
      split
      · apply keepsSet_pure
      · split
        · apply (ih _ _).bind
          intro next
          apply ih
        · apply keepsSet_throw
    · apply keepsSet_throw
    · apply keepsSet_attempt
    · apply keepsSet_freshId.bind
      intro id
      apply keepsSet_pure
    · apply ih
    · apply (keepsSet_attempt _).bind
      intro sum
      apply ih
    · apply keepsSet_pure
    · apply keepsSet_throw
    · apply keepsSet_throw

end Springboard.Machine
