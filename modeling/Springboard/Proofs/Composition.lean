import Springboard.Proofs.Bouncing
import Springboard.Proofs.Compilation
import Springboard.Proofs.Likeness
import Springboard.Proofs.SetFlags

/-!
# Continuations given to entries

An entry that is called with a continuation runs as it does without one, up to the step that hands
its value on; then it gives back what the continuation gives back. Two runs are followed side by
side: in one the flag of the entry wraps the identity, in the other the continuation. As long as
nothing is handed to that flag, they do the same. When a value is, the first run gets it back from
the identity, the other calls the continuation. From there on the first run cannot take another
step: all its trampolines have their flags set, because a trampoline whose flag is unset would force
the value, and a value that can be forced at all never sets a flag that is older than itself.
-/

namespace Springboard.Machine

/-! ### Flags side by side -/

/-- Flags that come after others: there are more of them, and those before `j` are as they were. -/
structure Grown (j : Nat) (flags flags' : Array Flag) : Prop where
  size : flags.size ≤ flags'.size
  before : ∀ i < j, flags'[i]? = flags[i]?

/-- The flags of two runs that differ in what the flag `j` wraps: the identity in one, `κ` in the
other. It is set in both or in neither. -/
structure Abreast (S : Setting) (κ : Value) (j : Nat) (done : Bool) (flags flags' : Array Flag) :
    Prop where
  size : flags'.size = flags.size
  before : ∀ i < j, flags'[i]? = flags[i]?
  own : flags[j]? = some ⟨.helper .identity, done⟩
  own' : flags'[j]? = some ⟨κ, done⟩
  after : ∀ i f, j < i → flags[i]? = some f →
    ∃ k', flags'[i]? = some ⟨k', f.done⟩ ∧ Twins S j f.k k'

section Flags

variable {S : Setting} {κ : Value} {j : Nat} {done : Bool} {flags flags' : Array Flag}

/-- Flags grow step by step. -/
theorem Grown.trans {flags₁ : Array Flag} (h : Grown j flags flags₁) (h' : Grown j flags₁ flags') :
  Grown j flags flags'
  := by
  refine ⟨Nat.le_trans h.size h'.size, ?_⟩
  intro i hi
  rw [h'.before i hi, h.before i hi]

/-- Flags that are left alone. -/
theorem grown_refl (j : Nat) (flags : Array Flag) : Grown j flags flags :=
  ⟨Nat.le_refl _, fun _ _ => rfl⟩

/-- A new flag comes after the others. -/
theorem grown_push (hj : j ≤ flags.size) (f : Flag) : Grown j flags (flags.push f) := by
  constructor
  · rw [Array.size_push]
    exact Nat.le_succ _
  · intro i hi
    rw [Array.getElem?_push, if_neg (by omega)]

/-- A flag is set that is not before `j`. -/
theorem grown_set {i : Nat} (hi : j ≤ i) (f : Flag) : Grown j flags (flags.setIfInBounds i f) := by
  constructor
  · exact Nat.le_of_eq Array.size_setIfInBounds.symm
  · intro i' hi'
    rw [Array.getElem?_setIfInBounds_ne]
    omega

/-- A flag before `j` stays set or unset. -/
theorem Grown.isDone_eq (h : Grown j flags flags') {i : Nat} (hi : i < j) (made made' : Nat) :
  State.isDone ⟨flags', made'⟩ i = State.isDone ⟨flags, made⟩ i
  := by
  unfold State.isDone
  dsimp only
  rw [h.before i hi]

namespace Abreast

/-- The flag that makes the difference is there. -/
theorem lt_size (h : Abreast S κ j done flags flags') : j < flags.size := by
  obtain ⟨hlt, -⟩ := Array.getElem?_eq_some_iff.mp h.own
  exact hlt

/-- A flag that is missing in one run is missing in the other. -/
theorem eq_none (h : Abreast S κ j done flags flags') {i : Nat} (hi : flags[i]? = none) :
  flags'[i]? = none
  := by
  rw [Array.getElem?_eq_none_iff, h.size]
  exact Array.getElem?_eq_none_iff.mp hi

/-- The same flags are set in both runs. -/
theorem isDone_eq (h : Abreast S κ j done flags flags') (i made made' : Nat) :
  State.isDone ⟨flags', made'⟩ i = State.isDone ⟨flags, made⟩ i
  := by
  unfold State.isDone
  dsimp only
  rcases Nat.lt_trichotomy i j with hi | rfl | hi
  · rw [h.before i hi]
  · rw [h.own, h.own']
  · cases hf : flags[i]? with
    | some f =>
      obtain ⟨k', hk', -⟩ := h.after i f hi hf
      rw [hk']
    | none => rw [h.eq_none hf]

/-- New flags around twin values. -/
theorem push (h : Abreast S κ j done flags flags') {k k' : Value} (hk : Twins S j k k') :
  Abreast S κ j done (flags.push ⟨k, false⟩) (flags'.push ⟨k', false⟩)
  := by
  have hlt := h.lt_size
  constructor
  · rw [Array.size_push, Array.size_push, h.size]
  · intro i hi
    rw [Array.getElem?_push, Array.getElem?_push, h.size, if_neg (by omega), if_neg (by omega)]
    exact h.before i hi
  · rw [Array.getElem?_push, if_neg (Nat.ne_of_lt hlt)]
    exact h.own
  · rw [Array.getElem?_push, h.size, if_neg (Nat.ne_of_lt hlt)]
    exact h.own'
  · intro i f hi hf
    rw [Array.getElem?_push] at hf ⊢
    rw [h.size]
    split at hf
    · rename_i hlast
      cases hf
      rw [if_pos hlast]
      exact ⟨k', rfl, hk⟩
    · rename_i hold
      rw [if_neg hold]
      exact h.after i f hi hf

/-- A younger flag is set in both runs. -/
theorem set (h : Abreast S κ j done flags flags') {i : Nat} (hi : j < i) {k k' : Value}
    (hk : Twins S j k k') :
  Abreast S κ j done (flags.setIfInBounds i ⟨k, true⟩) (flags'.setIfInBounds i ⟨k', true⟩)
  := by
  constructor
  · rw [Array.size_setIfInBounds, Array.size_setIfInBounds, h.size]
  · intro i' hi'
    rw [Array.getElem?_setIfInBounds_ne (by omega), Array.getElem?_setIfInBounds_ne (by omega)]
    exact h.before i' hi'
  · rw [Array.getElem?_setIfInBounds_ne (by omega)]
    exact h.own
  · rw [Array.getElem?_setIfInBounds_ne (by omega)]
    exact h.own'
  · intro i' f hi' hf
    rw [Array.getElem?_setIfInBounds] at hf ⊢
    rw [h.size]
    by_cases hsame : i = i'
    · rw [if_pos hsame] at hf ⊢
      split at hf
      · rename_i hlt
        cases hf
        rw [if_pos hlt]
        exact ⟨k', rfl, hk⟩
      · contradiction
    · rw [if_neg hsame] at hf ⊢
      exact h.after i' f hi' hf

/-- The flag that makes the difference is set in both runs. -/
theorem opened (h : Abreast S κ j done flags flags') :
  Abreast S κ j true (flags.setIfInBounds j ⟨.helper .identity, true⟩)
    (flags'.setIfInBounds j ⟨κ, true⟩)
  := by
  have hlt := h.lt_size
  constructor
  · rw [Array.size_setIfInBounds, Array.size_setIfInBounds, h.size]
  · intro i hi
    rw [Array.getElem?_setIfInBounds_ne (by omega), Array.getElem?_setIfInBounds_ne (by omega)]
    exact h.before i hi
  · rw [Array.getElem?_setIfInBounds_self, if_pos hlt]
  · rw [Array.getElem?_setIfInBounds_self, h.size, if_pos hlt]
  · intro i f hi hf
    rw [Array.getElem?_setIfInBounds_ne (by omega)] at hf ⊢
    exact h.after i f hi hf

end Abreast

/-- An entry that makes its flag around the identity in one run and around `κ` in the other. -/
theorem abreast_push (S : Setting) (κ : Value) (flags : Array Flag) :
  Abreast S κ flags.size false (flags.push ⟨.helper .identity, false⟩) (flags.push ⟨κ, false⟩)
  := by
  constructor
  · rw [Array.size_push, Array.size_push]
  · intro i hi
    rw [Array.getElem?_push_lt hi, Array.getElem?_push_lt hi]
  · exact Array.getElem?_push_size
  · exact Array.getElem?_push_size
  · intro i f hi hf
    obtain ⟨hlt, -⟩ := Array.getElem?_eq_some_iff.mp hf
    rw [Array.size_push] at hlt
    omega

/-- A value that is no flag is where settling ends. -/
theorem settle_of_ne {k : Value} (hk : ∀ i, k ≠ .flag i) (steps : Nat) (flags : Array Flag) :
  settle steps flags k = (flags, k)
  := by
  cases steps with
  | zero => rw [settle.eq_def]
  | succ steps =>
    cases k with
    | flag i => exact absurd rfl (hk i)
    | _ => rfl

/-- Settling goes the same way in both runs, unless it comes to the flag that makes the
difference. -/
theorem settle_abreast
    (hκ : ∀ i, κ ≠ .flag i) (h : Abreast S κ j false flags flags') {k k' : Value}
    (hk : Twins S j k k') {steps : Nat} {flags₁ : Array Flag} {k₁ : Value}
    (hsettle : settle steps flags k = (flags₁, k₁)) :
  Grown j flags flags₁ ∧ ∃ flags₁' k₁', settle steps flags' k' = (flags₁', k₁')
    ∧ (Abreast S κ j false flags₁ flags₁' ∧ Twins S j k₁ k₁'
      ∨ Abreast S κ j true flags₁ flags₁' ∧ k₁ = .helper .identity ∧ k₁' = κ)
  := by
  -- where settling ends at once, nothing has changed
  have hend : ∀ {flags flags' : Array Flag}, Abreast S κ j false flags flags' →
      ∀ {k k'}, Twins S j k k' → (flags, k) = (flags₁, k₁) → Grown j flags flags₁
        ∧ ∃ flags₁' k₁', (flags', k') = (flags₁', k₁')
          ∧ (Abreast S κ j false flags₁ flags₁' ∧ Twins S j k₁ k₁'
            ∨ Abreast S κ j true flags₁ flags₁' ∧ k₁ = .helper .identity ∧ k₁' = κ) := by
    intro flags flags' h k k' hk heq
    cases heq
    exact ⟨grown_refl _ _, _, _, rfl, .inl ⟨h, hk⟩⟩
  induction steps generalizing flags flags' k k' with
  | zero => exact hend h hk hsettle
  | succ steps ih =>
    have hk' := hk
    cases hk with
    | @flag i hi =>
      rw [settle] at hsettle ⊢
      cases hf : flags[i]? with
      | none =>
        rw [hf] at hsettle
        rw [h.eq_none hf]
        exact hend h hk' hsettle
      | some f =>
        rw [hf] at hsettle
        dsimp only at hsettle
        by_cases hij : i = j
        · subst hij
          rw [h.own] at hf
          cases hf
          rw [settle_of_ne (by simp)] at hsettle
          cases hsettle
          rw [h.own']
          dsimp only
          rw [settle_of_ne hκ]
          exact ⟨grown_set (Nat.le_refl i) _, _, _, rfl, .inr ⟨h.opened, rfl, rfl⟩⟩
        · have hlt : j < i := by omega
          obtain ⟨k₂, hk₂, htwins⟩ := h.after i f hlt hf
          rw [hk₂]
          obtain ⟨hgrown, hrest⟩ := ih (h.set hlt htwins) htwins hsettle
          exact ⟨(grown_set hi _).trans hgrown, hrest⟩
    | _ => exact hend h hk' hsettle

end Flags

/-! ### Runs side by side -/

/-- What becomes of a run beside one that came from `st` to `v` and `st'` with the fuel `n`. Given
that fuel it comes to the same, or it comes to hand `v` to `κ`, and does then what `κ` does. -/
inductive Accords (S : Setting) (κ : Value) (j n : Nat) (run : Nat → Run Value)
    (flags : Array Flag) (st : State) (v : Value) (st' : State) : Prop
  | along {v₁ : Value} {flags₁ : Array Flag} (hv : TwinWorks S j v v₁)
      (hflags : Abreast S κ j false st'.flags flags₁)
      (hrun : run n ⟨flags, st.made⟩ = .ok v₁ ⟨flags₁, st'.made⟩)
  | opened {v₁ : Value} {flags₁ : Array Flag} (d : Nat) (hv : Twins S j v v₁)
      (hflags : Abreast S κ j true st'.flags flags₁)
      (hrun : ∀ m ≥ n, run (m + d) ⟨flags, st.made⟩
        = callBy .usual S.spaces m κ [v₁] ⟨flags₁, st'.made⟩)

/-- Trampolines that end within so much fuel are followed side by side. -/
def Follows (S : Setting) (n : Nat) : Prop :=
  ∀ κ j i work work' st flags v st', (∀ i, κ ≠ .flag i) → i < st.flags.size →
    TwinWorks S j work work' → Abreast S κ j false st.flags flags →
      callBy .usual S.spaces n (.helper .trampoline) [work, .flag i] st = .ok v st' →
        Grown j st.flags st'.flags
          ∧ Accords S κ j n
            (fun m => callBy .usual S.spaces m (.helper .trampoline) [work', .flag i]) flags st v st'

section Runs

variable {S : Setting} {κ : Value} {j n : Nat} {st st' : State} {v : Value} {flags : Array Flag}

/-- A run that takes a step is followed as the rest of it is. -/
theorem Accords.of_step
    {run run' : Nat → Run Value} {st₁ : State} {flags₁ : Array Flag}
    (h : Accords S κ j n run' flags₁ st₁ v st')
    (hstep : ∀ m ≥ n, run (m + 1) ⟨flags, st.made⟩ = run' m ⟨flags₁, st₁.made⟩) :
  Accords S κ j (n + 1) run flags st v st'
  := by
  cases h with
  | along hv hflags hrun =>
    apply Accords.along hv hflags
    rw [hstep n (Nat.le_refl n), hrun]
  | opened d hv hflags hrun =>
    apply Accords.opened (d + 1) hv hflags
    intro m hm
    rw [← Nat.add_assoc, hstep (m + d) (by omega), hrun m (by omega)]

/-- Related lists end in related elements. -/
theorem exists_concat_of_forall₂
    {α β : Type} {R : α → β → Prop} {as : List α} {a : α} {bs : List β}
    (h : List.Forall₂ R (as ++ [a]) bs) :
  ∃ bs' b, bs = bs' ++ [b] ∧ List.Forall₂ R as bs' ∧ R a b
  := by
  induction as generalizing bs with
  | nil =>
    obtain ⟨b, bs', hb, hnil, rfl⟩ := List.forall₂_cons_left_iff.mp h
    cases hnil
    exact ⟨[], b, rfl, .nil, hb⟩
  | cons c as ih =>
    obtain ⟨b, bs', hb, hrest, rfl⟩ := List.forall₂_cons_left_iff.mp h
    obtain ⟨bs', b', rfl, has, hb'⟩ := ih hrest
    exact ⟨b :: bs', b', rfl, .cons hb has, hb'⟩

/-- An entry that is called on twin arguments makes a flag around a twin of the continuation, and
bounces on a suspension that goes the same way. -/
theorem accords_entry
    (hS : S.Fits) (hκ : ∀ i, κ ≠ .flag i) (ih : ∀ m < n, Follows S m) {r : Routine}
    (hr : S.routines r) (id : Nat) {args args' : List Value}
    (hargs : List.Forall₂ (Twins S j) args args') (hflags : Abreast S κ j false st.flags flags)
    (h : callBy .usual S.spaces n (S.entryValue r id) args st = .ok v st') :
  Grown j st.flags st'.flags
    ∧ Accords S κ j n (fun m => callBy .usual S.spaces m (S.entryValue r id) args') flags st v st'
  := by
  obtain ⟨I, hI⟩ := hS.routine hr
  obtain ⟨m, args₁, k, rfl, hlength, hsplit, hbounce⟩ := callBy_entry_cases hS hI h
  obtain ⟨args₁', k', hargs₁, hk, hcall⟩ : ∃ args₁' k', List.Forall₂ (Twins S j) args₁ args₁'
      ∧ Twins S j k k' ∧ ∀ m st, callBy .usual S.spaces (m + 2) (S.entryValue r id) args' st
        = callBy .usual S.spaces (m + 1) (.helper .trampoline)
          [S.launched r args₁' k' st.flags.size st.made, .flag st.flags.size]
          ⟨st.flags.push ⟨k', false⟩, st.made + 2⟩ := by
    obtain rfl | ⟨rfl, rfl⟩ := hsplit
    · obtain ⟨args₁', k', rfl, hargs₁, hk⟩ := exists_concat_of_forall₂ hargs
      refine ⟨args₁', k', hargs₁, hk, ?_⟩
      intro m st
      exact callBy_entry hS hI (hlength.trans hargs₁.length_eq) _ m id st
    · refine ⟨args', _, hargs, .identity, ?_⟩
      intro m st
      exact callBy_entry_identity hS hI (hlength.trans hargs.length_eq) _ m id st
  have hj : j ≤ st.flags.size := Nat.le_of_lt hflags.lt_size
  have hsize : st.flags.size < (st.flags.push ⟨k, false⟩).size := by
    rw [Array.size_push]
    exact Nat.lt_succ_self _
  obtain ⟨hgrown, haccords⟩ := ih (m + 1) (Nat.lt_succ_self _) κ j st.flags.size _ _ _ _ v st' hκ
    hsize (hI.twinWorks hargs₁ hlength k k' hj st.made) (hflags.push hk) hbounce
  refine ⟨(grown_push hj _).trans hgrown, haccords.of_step ?_⟩
  intro m' hm'
  obtain ⟨m', rfl⟩ : ∃ m'', m' = m'' + 1 := ⟨m' - 1, by omega⟩
  dsimp only
  rw [hcall, hflags.size]

/-- A call of a value on arguments is followed side by side. -/
theorem accords_data
    (hS : S.Fits) (hκ : ∀ i, κ ≠ .flag i) (ih : ∀ m < n, Follows S m) {f f' : Value}
    (hf : Twins S j f f') {args args' : List Value} (hargs : List.Forall₂ (Twins S j) args args')
    (hflags : Abreast S κ j false st.flags flags)
    (h : callBy .usual S.spaces n f args st = .ok v st') :
  Grown j st.flags st'.flags
    ∧ Accords S κ j n (fun m => callBy .usual S.spaces m f' args') flags st v st'
  := by
  cases n with
  | zero => exact absurd h throw_ne_ok
  | succ n =>
    cases hf with
    | number n => exact absurd h throw_ne_ok
    | flag hi => exact absurd h throw_ne_ok
    | identity =>
      cases hargs with
      | nil => exact absurd h throw_ne_ok
      | cons hu hrest =>
        cases hrest with
        | cons _ _ => exact absurd h throw_ne_ok
        | nil =>
          cases h
          exact ⟨grown_refl _ _, .along (.value hu) hflags rfl⟩
    | entry hr id => exact accords_entry hS hκ ih hr id hargs hflags h
    | @closure I k body params env env' id own hI hk hbody hparams hnames hak hbound hvalues =>
      by_cases hlength : params.length = args.length
      · rw [callBy_suspending _ _ _ _ _ _ _ _ hlength] at h
        cases h
        have henv : ∀ x ∉ params ++ own.toList, Paired S j env env' x := by
          intro x hx
          exact paired_iff.mpr ⟨hbound x hx, fun v v' => hvalues x v v' hx⟩
        refine ⟨grown_refl _ _, .along
          (twinWorks_body own st.made id hI hk hbody hparams hnames hak henv hargs hlength) hflags ?_⟩
        exact callBy_suspending _ _ _ _ _ _ _ _ (hlength.trans hargs.length_eq) _
      · exact absurd h (callBy_closure_ne_ok hlength)

/-- A call that code makes is followed side by side. A value that it hands on may come to the flag
that makes the difference. -/
theorem accords_call
    (hS : S.Fits) (hκ : ∀ i, κ ≠ .flag i) (ih : ∀ m < n, Follows S m)
    {target target' : Value × List Value} (hcall : TwinCalls S j target target')
    (hflags : Abreast S κ j false st.flags flags)
    (h : callBy .usual S.spaces n target.1 target.2 st = .ok v st') :
  Grown j st.flags st'.flags
    ∧ Accords S κ j n (fun m => callBy .usual S.spaces m target'.1 target'.2) flags st v st'
  := by
  cases hcall with
  | data hf hargs => exact accords_data hS hκ ih hf hargs hflags h
  | @handing k k' u u' hk hu =>
    cases n with
    | zero => exact absurd h throw_ne_ok
    | succ n =>
      obtain ⟨flags₁, k₁, hsettle⟩ : ∃ flags₁ k₁, settle st.flags.size st.flags k = (flags₁, k₁) :=
        ⟨_, _, rfl⟩
      obtain ⟨hgrown, flags₁', k₁', hsettle', hcases⟩ := settle_abreast hκ hflags hk hsettle
      rw [← hflags.size] at hsettle'
      have hstep : ∀ m, callBy .usual S.spaces (m + 1) (.helper .applyK) [k', u'] ⟨flags, st.made⟩
          = callBy .usual S.spaces m k₁' [u'] ⟨flags₁', st.made⟩ := by
        intro m
        exact callBy_applyK hsettle' _ _ m
      rw [callBy_applyK hsettle] at h
      obtain ⟨hflags₁, hk₁⟩ | ⟨hflags₁, rfl, rfl⟩ := hcases
      · obtain ⟨hgrown', haccords⟩ := accords_data hS hκ (fun m hm => ih m (Nat.lt_succ_of_lt hm))
          hk₁ (.cons hu .nil) hflags₁ h
        exact ⟨hgrown.trans hgrown', haccords.of_step fun m _ => hstep m⟩
      · cases n with
        | zero => exact absurd h throw_ne_ok
        | succ n =>
          cases h
          exact ⟨hgrown, .opened 1 hu hflags₁ fun m _ => hstep m⟩

/-- Forcing what a trampoline works with is followed side by side. -/
theorem accords_force
    (hS : S.Fits) (hκ : ∀ i, κ ≠ .flag i) (ih : ∀ m < n, Follows S m) {work work' : Value}
    (hwork : TwinWorks S j work work') (hflags : Abreast S κ j false st.flags flags)
    (h : callBy .usual S.spaces n work [] st = .ok v st') :
  Grown j st.flags st'.flags
    ∧ Accords S κ j n (fun m => callBy .usual S.spaces m work' []) flags st v st'
  := by
  cases hwork with
  | value hvalue => exact accords_data hS hκ ih hvalue .nil hflags h
  | @suspension I k t env env' id hI hk ht hak henv =>
    cases n with
    | zero => exact absurd h throw_ne_ok
    | succ n =>
      rw [callBy_suspension ht] at h
      obtain ⟨target, st₁, htarget, h⟩ := bind_eq_ok.mp h
      obtain ⟨hst₁, htwin⟩ :=
        echoes_aim hS.toHandsOn hI henv hak hk ht st target st₁ htarget
      obtain ⟨target', htarget', hcall⟩ := htwin flags
      rw [← hst₁] at hflags ⊢
      obtain ⟨hgrown, haccords⟩ :=
        accords_call hS hκ (fun m hm => ih m (Nat.lt_succ_of_lt hm)) hcall hflags h
      refine ⟨hgrown, haccords.of_step ?_⟩
      intro m _
      rw [callBy_suspension ht]
      exact bind_of_ok htarget'

/-- **An entry hands its value to the continuation that it is given.** If it comes to a value
without a continuation, then with `κ` it does what `κ` does with that value. -/
theorem opens_entry
    (hS : S.Fits) (hκ : ∀ i, κ ≠ .flag i) (ih : ∀ m < n, Follows S m) {r : Routine}
    (hr : S.routines r) (id : Nat) {args : List Value} (hlength : r.params.length = args.length)
    (hargs : ∀ a ∈ args, ∃ n, a = .number n)
    (h : callBy .usual S.spaces n (S.entryValue r id) args st = .ok v st') :
  Grown st.flags.size st.flags st'.flags
    ∧ ∃ v₁ flags₁ d, Twins S st.flags.size v v₁
      ∧ Abreast S κ st.flags.size true st'.flags flags₁
      ∧ ∀ m ≥ n, callBy .usual S.spaces (m + d) (S.entryValue r id) (args ++ [κ]) st
        = callBy .usual S.spaces m κ [v₁] ⟨flags₁, st'.made⟩
  := by
  obtain ⟨I, hI⟩ := hS.routine hr
  match n with
  | 0 => exact absurd h throw_ne_ok
  | 1 =>
    obtain ⟨m, -, -, hm, -⟩ := callBy_entry_cases hS hI h
    omega
  | n + 2 =>
    rw [callBy_entry_identity hS hI hlength] at h
    have htwins : List.Forall₂ (Twins S st.flags.size) args args := by
      rw [List.forall₂_same]
      intro a ha
      obtain ⟨n, rfl⟩ := hargs a ha
      exact .number n
    have hsize : st.flags.size < (st.flags.push ⟨.helper .identity, false⟩).size := by
      rw [Array.size_push]
      exact Nat.lt_succ_self _
    obtain ⟨hgrown, haccords⟩ := ih (n + 1) (Nat.lt_succ_self _) κ st.flags.size st.flags.size _ _ _
      _ v st' hκ hsize (hI.twinWorks htwins hlength (.helper .identity) κ (Nat.le_refl _) st.made)
      (abreast_push S κ st.flags) h
    refine ⟨(grown_push (Nat.le_refl _) _).trans hgrown, ?_⟩
    cases haccords with
    | along hv hflags hrun =>
      -- the trampoline has ended, so its flag is set
      have hdone := isDone_of_trampoline h
      rw [State.isDone, hflags.own] at hdone
      contradiction
    | @opened v₁ flags₁ d hv hflags hrun =>
      refine ⟨v₁, flags₁, d + 1, hv, hflags, ?_⟩
      intro m hm
      obtain ⟨m', hm'⟩ : ∃ m', m + d = m' + 1 := ⟨m + d - 1, by omega⟩
      rw [← hrun m (by omega), ← Nat.add_assoc, hm', callBy_entry hS hI hlength]

/-- Of the values that a name can have, only an entry can be forced. -/
theorem exists_entry_of_forced
    {f f' : Value} (hf : Twins S j f f') {w : Watch} {spaces : List Namespace}
    (h : callBy w spaces n f [] st = .ok v st') :
  ∃ r id, S.routines r ∧ f = S.entryValue r id
  := by
  cases n with
  | zero => exact absurd h throw_ne_ok
  | succ n =>
    cases hf with
    | number n => exact absurd h throw_ne_ok
    | flag hi => exact absurd h throw_ne_ok
    | identity => exact absurd h throw_ne_ok
    | entry hr id => exact ⟨_, id, hr, rfl⟩
    | closure id own hI hk hbody hparams hnames hak hbound hvalues =>
      apply absurd h
      apply callBy_closure_ne_ok
      intro hlength
      exact hparams (List.length_eq_zero_iff.mp hlength)

/-- A trampoline with an unset flag does not end once it works with a value: what it forces makes
flags of its own and leaves the older ones alone. -/
theorem trampoline_ne_ok
    (hS : S.Fits) (ih : ∀ m < n, Follows S m) {f f' : Value} (hf : Twins S j f f') {i : Nat}
    (hi : i < st.flags.size) (hunset : st.isDone i = false) :
  callBy .usual S.spaces n (.helper .trampoline) [f, .flag i] st ≠ .ok v st'
  := by
  induction n generalizing j f f' st with
  | zero => exact throw_ne_ok
  | succ n ihn =>
    intro h
    have ih : ∀ m < n, Follows S m := fun m hm => ih m (Nat.lt_succ_of_lt hm)
    have hforces : Watch.usual.forces f = true := rfl
    rw [callBy_trampoline, hunset, if_neg Bool.false_ne_true, if_pos hforces] at h
    obtain ⟨next, st₁, hnext, hrest⟩ := bind_eq_ok.mp h
    obtain ⟨r, id, hr, rfl⟩ := exists_entry_of_forced hf hnext
    obtain ⟨I, hI⟩ := hS.routine hr
    have hlength : r.params.length = ([] : List Value).length := by
      obtain ⟨-, args₁, k, -, hlength, hsplit, -⟩ := callBy_entry_cases hS hI hnext
      obtain hconcat | ⟨rfl, -⟩ := hsplit
      · exact absurd hconcat (List.append_ne_nil_of_right_ne_nil _ (List.cons_ne_nil _ _)).symm
      · exact hlength
    have hne : ∀ i, Value.helper .identity ≠ .flag i := by
      intro i hi
      contradiction
    obtain ⟨hgrown, v₁, -, -, hv₁, -⟩ := opens_entry hS hne ih hr id hlength (by simp) hnext
    have hunset₁ : st₁.isDone i = false := (hgrown.isDone_eq hi _ _).trans hunset
    exact ihn ih hv₁ (Nat.lt_of_lt_of_le hi hgrown.size) hunset₁ hrest

/-- A trampoline whose flag is set passes on what its work gives. -/
theorem bind_trampoline {x : Run Value} (hx : KeepsSet x) {i : Nat} (hdone : st.isDone i = true)
    (w : Watch) (spaces : List Namespace) (m : Nat) :
  (x >>= fun next => callBy w spaces (m + 1) (.helper .trampoline) [next, .flag i]) st = x st
  := by
  cases hrun : x st with
  | ok next st₁ =>
    rw [bind_of_ok hrun, callBy_trampoline, if_pos (hx st next st₁ hrun i hdone)]
  | error e st₁ => exact bind_of_error hrun

/-- Trampolines are followed side by side. -/
theorem follows (hS : S.Fits) (n : Nat) : Follows S n := by
  -- what is forced may start trampolines of its own, with any smaller fuel
  induction n using Nat.strongRecOn with
  | ind n ih =>
    intro κ j i work work' st flags v st' hκ hi hwork hflags h
    cases n with
    | zero => exact absurd h throw_ne_ok
    | succ n =>
      have hdone := hflags.isDone_eq i st.made st.made
      have hsmaller : ∀ m < n, Follows S m := fun m hm => ih m (Nat.lt_succ_of_lt hm)
      have hforces : ∀ f, Watch.usual.forces f = true := fun _ => rfl
      rw [callBy_trampoline] at h
      split at h
      · rename_i hset
        cases h
        refine ⟨grown_refl _ _, .along hwork hflags ?_⟩
        rw [callBy_trampoline, hdone, if_pos hset]
      · rename_i hunset
        have hstep : ∀ m, callBy .usual S.spaces (m + 1) (.helper .trampoline) [work', .flag i]
            ⟨flags, st.made⟩ = (callBy .usual S.spaces m work' [] >>= fun next =>
              callBy .usual S.spaces m (.helper .trampoline) [next, .flag i]) ⟨flags, st.made⟩ := by
          intro m
          rw [callBy_trampoline, hdone, if_neg hunset, if_pos (hforces work')]
        rw [if_pos (hforces work)] at h
        obtain ⟨next, st₁, hnext, h⟩ := bind_eq_ok.mp h
        obtain ⟨hgrown, haccords⟩ := accords_force hS hκ hsmaller hwork hflags hnext
        have hi₁ : i < st₁.flags.size := Nat.lt_of_lt_of_le hi hgrown.size
        cases haccords with
        | @along next' flags₁ hnext' hflags₁ hrun =>
          obtain ⟨hgrown', haccords⟩ := ih n (Nat.lt_succ_self n) κ j i next next' st₁ flags₁ v st' hκ
            hi₁ hnext' hflags₁ h
          refine ⟨hgrown.trans hgrown', haccords.of_step ?_⟩
          intro m hm
          rw [hstep m, bind_of_ok (callBy_mono hm hrun)]
        | @opened v₁ flags₁ d hv hflags₁ hrun =>
          -- the run that has the identity must end here
          have hset : st₁.isDone i = true := by
            by_contra hunset
            rw [Bool.not_eq_true] at hunset
            exact trampoline_ne_ok hS hsmaller hv hi₁ hunset h
          cases n with
          | zero => exact absurd h throw_ne_ok
          | succ n =>
            rw [callBy_trampoline, if_pos hset] at h
            cases h
            refine ⟨hgrown, .opened (d + 1) hv hflags₁ ?_⟩
            intro m hm
            obtain ⟨m', hm'⟩ : ∃ m', m + d = m' + 1 := ⟨m + d - 1, by omega⟩
            have hset' : State.isDone ⟨flags₁, st'.made⟩ i = true :=
              (hflags₁.isDone_eq i st'.made st'.made).trans hset
            rw [← Nat.add_assoc, hstep, bind_eq_bind (hrun m (by omega)), hm']
            exact bind_trampoline (keepsSet_callBy .usual S.spaces m κ [v₁]) hset' _ _ m'

end Runs

/-! ### Compiled entries -/

/-- States that differ in nothing but in what their flags wrap. -/
structure State.Agrees (st st' : State) : Prop where
  made : st'.made = st.made
  size : st'.flags.size = st.flags.size
  isDone : ∀ i, st'.isDone i = st.isDone i

/-- Of definitions with distinct names each is the last of its name. -/
theorem latest_of_pairwise
    {Ds : List Definition} (h : Ds.Pairwise fun d d' => d.name ≠ d'.name) {d : Definition}
    (hd : d ∈ Ds) (n : Int) :
  ∃ i, Definition.latest d.name (Definition.placed Ds n) = some (d, i)
  := by
  have hfst := Definition.map_fst_numbered (applyKName n) Ds (n + 4)
  cases hlatest : Definition.latest d.name (Definition.placed Ds n) with
  | none =>
    rw [← hfst] at hd
    obtain ⟨p, hp, rfl⟩ := List.mem_map.mp hd
    exact absurd rfl (Definition.latest_eq_none.mp hlatest p hp)
  | some p =>
    obtain ⟨hp, hname⟩ := Definition.of_latest hlatest
    have hmem : p.1 ∈ Ds := (Definition.number_of_mem_numbered hp).1
    obtain rfl : p.1 = d := List.inj_on_of_nodup_map (List.pairwise_map.mpr h) hmem hd hname
    exact ⟨p.2, rfl⟩

/-- A definition that calls itself, as it is read. -/
def counting : Tree :=
  .definition "count" ["n", "acc"]
    (.conditional .serious (.operation .isZero [.var "n"]) (.var "acc")
      (.application (.var "count") [.operation .dec [.var "n"], .operation .inc [.var "acc"]])) none

/-- The text of the definition. -/
def countingText : String :=
  "(defn count (n acc) (if (zero? n) acc (count (dec n) (inc acc))))"

/-- The text can be read. -/
theorem readAll_countingText : Tree.readAll countingText = .ok [counting] := by
  cbv

end Springboard.Machine
