import Springboard.Error

/-!
# Outcomes of runs

Evaluations and runs of the machine are computations of one kind: they change a state, and they
end with a value or stop. A computation approximates another when it has the same outcome from
every state, except that it may stop early for a reason that is to be ignored. Two reasons are
ignored in what follows: that the fuel ran out, and that a rule which only watches the run was
broken.
-/

namespace Springboard

variable {ε σ α β : Type}

/-! ### Sequences -/

/-- After a step that has a value, a sequence goes on with its second part. -/
theorem bind_of_ok
    {x : EStateM ε σ α} {f : α → EStateM ε σ β} {s s' : σ} {a : α} (h : x s = .ok a s') :
  (x >>= f) s = f a s'
  := by
  simp only [bind, EStateM.bind, h]

/-- Steps with the same outcome are followed by the same. -/
theorem bind_eq_bind
    {x y : EStateM ε σ α} {f : α → EStateM ε σ β} {s t : σ} (h : x s = y t) :
  (x >>= f) s = (y >>= f) t
  := by
  simp only [bind, EStateM.bind, h]

/-- After a step that stops, a sequence stops. -/
theorem bind_of_error
    {x : EStateM ε σ α} {f : α → EStateM ε σ β} {s s' : σ} {e : ε} (h : x s = .error e s') :
  (x >>= f) s = .error e s'
  := by
  simp only [bind, EStateM.bind, h]

/-- A sequence has a value just when its first part has one and its second part goes on to have
that value. -/
theorem bind_eq_ok
    {x : EStateM ε σ α} {f : α → EStateM ε σ β} {s s' : σ} {b : β} :
  (x >>= f) s = .ok b s' ↔ ∃ a s₁, x s = .ok a s₁ ∧ f a s₁ = .ok b s'
  := by
  constructor
  · intro h
    cases hx : x s with
    | ok a s₁ =>
      rw [bind_of_ok hx] at h
      exact ⟨a, s₁, rfl, h⟩
    | error e s₁ =>
      rw [bind_of_error hx] at h
      contradiction
  · rintro ⟨a, s₁, hx, hf⟩
    rw [bind_of_ok hx, hf]

/-- A pure step has its value and leaves the state alone. -/
theorem pure_eq (a : α) (s : σ) :
  (pure a : EStateM ε σ α) s = .ok a s
  := by
  rfl

/-- A pure step has no other value. -/
theorem pure_eq_ok {a b : α} {s s' : σ} :
  (pure a : EStateM ε σ α) s = .ok b s' ↔ a = b ∧ s = s'
  := by
  rw [pure_eq, EStateM.Result.ok.injEq]

/-- A failing step has no value. -/
theorem throw_ne_ok {e : ε} {b : α} {s s' : σ} :
  (throw e : EStateM ε σ α) s ≠ .ok b s'
  := by
  intro h
  contradiction

/-! ### Approximation -/

/-- From every state `x` has the outcome of `y`, or stops for a reason that is ignored. -/
def Approximates (ignored : Stop → Prop) (x y : EStateM Stop σ α) : Prop :=
  ∀ s, (∃ e s', ignored e ∧ x s = .error e s') ∨ x s = y s

/-- The reason that the fuel ran out. -/
def OutOfFuel (reason : Stop) : Prop :=
  reason = .outOfFuel

namespace Approximates

variable {ignored : Stop → Prop}

/-- Every computation approximates itself. -/
theorem refl (x : EStateM Stop σ α) : Approximates ignored x x := by
  intro s
  right
  rfl

/-- A computation that stops for an ignored reason approximates any other. -/
theorem of_throw {e : Stop} (he : ignored e) (y : EStateM Stop σ α) :
  Approximates ignored (throw e) y
  := by
  intro s
  left
  exact ⟨e, s, he, rfl⟩

/-- Sequences approximate each other when their parts do. -/
theorem bind
    {x y : EStateM Stop σ α} {f g : α → EStateM Stop σ β}
    (hx : Approximates ignored x y) (hf : ∀ a, Approximates ignored (f a) (g a)) :
  Approximates ignored (x >>= f) (y >>= g)
  := by
  intro s
  obtain ⟨e, s', he, h⟩ | h := hx s
  · left
    exact ⟨e, s', he, bind_of_error h⟩
  · cases hy : y s with
    | ok a s' =>
      rw [bind_of_ok (h.trans hy), bind_of_ok hy]
      apply hf
    | error e s' =>
      right
      rw [bind_of_error (h.trans hy), bind_of_error hy]

/-- A value of an approximation is a value of what it approximates. -/
theorem eq_ok
    {x y : EStateM Stop σ α} (hxy : Approximates ignored x y) {s s' : σ} {a : α}
    (h : x s = .ok a s') :
  y s = .ok a s'
  := by
  obtain ⟨e, s₁, -, hx⟩ | hx := hxy s
  · rw [hx] at h
    contradiction
  · rw [← hx, h]

/-- A stop of an approximation that is not ignored is a stop of what it approximates. -/
theorem eq_error
    {x y : EStateM Stop σ α} (hxy : Approximates ignored x y) {s s' : σ} {e : Stop}
    (he : ¬ ignored e) (h : x s = .error e s') :
  y s = .error e s'
  := by
  obtain ⟨e', s₁, he', hx⟩ | hx := hxy s
  · rw [hx, EStateM.Result.error.injEq] at h
    rw [h.1] at he'
    contradiction
  · rw [← hx, h]

end Approximates

/-! ### Runs that keep a record -/

section Views

variable {τ : Type} {π : σ → τ}

/-- An outcome through a view of the state. -/
def viewed (π : σ → τ) : EStateM.Result ε σ α → EStateM.Result ε τ α
  | .ok a s => .ok a (π s)
  | .error e s => .error e (π s)

/-- Through a view of the state `x` is `y`: what it keeps beside does not change what it does. -/
def Shows (π : σ → τ) (x : EStateM ε σ α) (y : EStateM ε τ α) : Prop :=
  ∀ s, viewed π (x s) = y (π s)

namespace Shows

/-- A value looks the same through every view. -/
theorem pure (a : α) : Shows π (pure a : EStateM ε σ α) (pure a) := by
  intro s
  rfl

/-- A failure looks the same through every view. -/
theorem throw (e : ε) : Shows π (throw e : EStateM ε σ α) (throw e) := by
  intro s
  rfl

/-- The view of a sequence is that of its parts. -/
theorem bind {x : EStateM ε σ α} {y : EStateM ε τ α} {f : α → EStateM ε σ β}
    {g : α → EStateM ε τ β} (hx : Shows π x y) (hf : ∀ a, Shows π (f a) (g a)) :
  Shows π (x >>= f) (y >>= g)
  := by
  intro s
  have h := hx s
  cases hxs : x s with
  | ok a s₁ =>
    rw [hxs] at h
    rw [bind_of_ok hxs, bind_of_ok h.symm]
    exact hf a s₁
  | error e s₁ =>
    rw [hxs] at h
    rw [bind_of_error hxs, bind_of_error h.symm]
    rfl

/-- A value that is had in view is had by the run. -/
theorem exists_ok {x : EStateM ε σ α} {y : EStateM ε τ α} (h : Shows π x y) {s : σ} {a : α} {t : τ}
    (hy : y (π s) = .ok a t) :
  ∃ s', x s = .ok a s' ∧ π s' = t
  := by
  have hs := h s
  rw [hy] at hs
  cases hx : x s with
  | ok b s' =>
    rw [hx] at hs
    cases hs
    exact ⟨s', rfl, rfl⟩
  | error e s' =>
    rw [hx] at hs
    contradiction

/-- A value of the run is had in view. -/
theorem eq_ok {x : EStateM ε σ α} {y : EStateM ε τ α} (h : Shows π x y) {s s' : σ} {a : α}
    (hx : x s = .ok a s') :
  y (π s) = .ok a (π s')
  := by
  rw [← h s, hx]
  rfl

/-- Runs with the same outcome have the same outcome in view. -/
theorem eq_of_eq {x x' : EStateM ε σ α} {y y' : EStateM ε τ α} (h : Shows π x y)
    (h' : Shows π x' y') {s s' : σ} (hx : x s = x' s') :
  y (π s) = y' (π s')
  := by
  rw [← h s, ← h' s', hx]

end Shows

end Views

/-! ### Two systems side by side -/

/-- Options are related when both have a value or neither has, and the values are related. -/
theorem rel_iff_isSome {α β : Type} {R : α → β → Prop} {o : Option α} {o' : Option β} :
  Option.Rel R o o' ↔ o.isSome = o'.isSome ∧ ∀ a b, o = some a → o' = some b → R a b
  := by
  constructor
  · rintro (h | -)
    · refine ⟨rfl, ?_⟩
      rintro _ _ ⟨⟩ ⟨⟩
      exact h
    · refine ⟨rfl, ?_⟩
      rintro a b ⟨⟩
  · rintro ⟨hsome, h⟩
    cases o with
    | none =>
      cases o' with
      | none => exact .none
      | some b => contradiction
    | some a =>
      cases o' with
      | none => contradiction
      | some b => exact .some (h a b rfl rfl)

/-- From states with the invariants `I` and `J`, a value of `x` is matched by a related value of
`y`; and the other way round too, if the match is strict. The invariants remain. -/
structure Carried {ε ε' σ τ α β : Type} (strict : Prop) (I : σ → Prop) (J : τ → Prop)
    (R : α → β → Prop) (x : EStateM ε σ α) (y : EStateM ε' τ β) : Prop where
  forth {s : σ} {t : τ} {a : α} {s' : σ} :
    I s → J t → x s = .ok a s' → I s' ∧ ∃ b t', y t = .ok b t' ∧ R a b ∧ J t'
  back {s : σ} {t : τ} {b : β} {t' : τ} :
    strict → I s → J t → y t = .ok b t' → J t' ∧ ∃ a s', x s = .ok a s' ∧ R a b ∧ I s'

namespace Carried

variable {ε' τ γ δ : Type} {strict : Prop} {I : σ → Prop} {J : τ → Prop}
variable {R : α → β → Prop} {Q : γ → δ → Prop}

/-- Related values match. -/
theorem pure {a : α} {b : β} (h : R a b) :
  Carried strict I J R (pure a : EStateM ε σ α) (pure b : EStateM ε' τ β)
  := by
  constructor
  · intro s t a' s' hs ht ha
    obtain ⟨rfl, rfl⟩ := pure_eq_ok.mp ha
    exact ⟨hs, b, t, rfl, h, ht⟩
  · intro s t b' t' _ hs ht hb
    obtain ⟨rfl, rfl⟩ := pure_eq_ok.mp hb
    exact ⟨ht, a, s, rfl, h, hs⟩

/-- Computations without a value match. -/
theorem of_fail {x : EStateM ε σ α} {y : EStateM ε' τ β}
    (hx : ∀ s a s', x s ≠ .ok a s') (hy : strict → ∀ t b t', y t ≠ .ok b t') :
  Carried strict I J R x y
  := by
  constructor
  · intro s t a s' _ _ ha
    exact absurd ha (hx s a s')
  · intro s t b t' hstrict _ _ hb
    exact absurd hb (hy hstrict t b t')

/-- Sequences match when their parts do. -/
theorem bind
    {x : EStateM ε σ α} {y : EStateM ε' τ β} {f : α → EStateM ε σ γ} {g : β → EStateM ε' τ δ}
    (h : Carried strict I J R x y) (hfg : ∀ a b, R a b → Carried strict I J Q (f a) (g b)) :
  Carried strict I J Q (x >>= f) (y >>= g)
  := by
  constructor
  · intro s t c s' hs ht hc
    obtain ⟨a, s₁, ha, hc⟩ := bind_eq_ok.mp hc
    obtain ⟨hs₁, b, t₁, hb, hab, ht₁⟩ := h.forth hs ht ha
    obtain ⟨hs', d, t', hd, hcd, ht'⟩ := (hfg a b hab).forth hs₁ ht₁ hc
    exact ⟨hs', d, t', by rw [bind_of_ok hb, hd], hcd, ht'⟩
  · intro s t d t' hstrict hs ht hd
    obtain ⟨b, t₁, hb, hd⟩ := bind_eq_ok.mp hd
    obtain ⟨ht₁, a, s₁, ha, hab, hs₁⟩ := h.back hstrict hs ht hb
    obtain ⟨ht', c, s', hc, hcd, hs'⟩ := (hfg a b hab).back hstrict hs₁ ht₁ hd
    exact ⟨ht', c, s', by rw [bind_of_ok ha, hc], hcd, hs'⟩

/-- What is matched depends on the values of a computation alone, not on how it fails. -/
theorem of_iff
    {x : EStateM ε σ α} {y y' : EStateM ε' τ β}
    (hy : ∀ t b t', y t = .ok b t' ↔ y' t = .ok b t') (h : Carried strict I J R x y') :
  Carried strict I J R x y
  := by
  constructor
  · intro s t a s' hs ht ha
    obtain ⟨hs', b, t', hb, hab, ht'⟩ := h.forth hs ht ha
    exact ⟨hs', b, t', (hy t b t').mpr hb, hab, ht'⟩
  · intro s t b t' hstrict hs ht hb
    exact h.back hstrict hs ht ((hy t b t').mp hb)

end Carried

end Springboard
