import Springboard.Proofs.Stranding

/-!
# From the machine back to evaluation

If the machine comes to a value then evaluation of the converted program has that value. Along the
run either the work at hand stands for what evaluation still has to do, or the trampolines are
stranded; and stranded trampolines do not end.
-/

namespace Springboard.Machine

/-- The work at hand stands for what evaluation still has to do, and `P` holds of the value that
evaluation comes to. Some of the innermost trampolines may have their flags set already. -/
def Pending (S : Setting) (κ₀ : Evaluation.Value) (P : Evaluation.Value → Prop) (stack : List Nat)
    (work : Value) (flags : Array Flag) : Prop :=
  ∃ before after, stack = before ++ after ∧ (∀ j ∈ before, ∃ k, flags[j]? = some ⟨k, true⟩)
    ∧ ((∃ env t s, Suspends S κ₀ flags after env t work ∧ Evaluation.Holds S.globals s
        ∧ ∀ n v s', Evaluation.evalBy Evaluation.apart (Evaluation.callBy Evaluation.apart n) env t s
          = .ok v s' → P v)
      ∨ after = [] ∧ ∃ v, Tracks S v work ∧ P v)

/-- A trampoline that ends within so much fuel gives back what the others have to go on with, or
strands them. -/
def Returns (S : Setting) (κ₀ : Evaluation.Value) (P : Evaluation.Value → Prop) (n : Nat) : Prop :=
  ∀ i stack work st v st', Proper S work st.flags →
    Pending S κ₀ P (i :: stack) work st.flags →
      callBy .lenient S.spaces n (.helper .trampoline) [work, .flag i] st = .ok v st' →
        Pending S κ₀ P stack v st'.flags ∨ Stranded S stack v st'.flags

section Back

variable {S : Setting} {κ₀ : Evaluation.Value} {P : Evaluation.Value → Prop}
variable {flags : Array Flag} {stack : List Nat}

/-- The outermost of the flags that a continuation wraps is around the identity. -/
theorem Continues.exists_bare {κ : Evaluation.Value} {κ' : Value}
    (h : Continues S κ₀ flags stack κ κ') (hlive : stack ≠ []) :
  ∃ i ∈ stack, Bare flags i
  := by
  induction h with
  | root => contradiction
  | @flag j stack κ κ' hflag hstack h ih =>
    cases stack with
    | nil =>
      cases h with
      | root => exact ⟨j, List.mem_cons_self, hflag⟩
      | closure hlive hk hs hbody henv hκ hκ' h => contradiction
    | cons i stack =>
      obtain ⟨i', hi', hbare⟩ := ih (List.cons_ne_nil _ _)
      exact ⟨i', List.mem_cons_of_mem _ hi', hbare⟩
  | closure hlive hk hs hbody henv hκ hκ' h ih => exact ih hlive

/-- A suspension is pending for what evaluation has to do. -/
theorem Pending.of_suspends {env : Evaluation.Env} {t : Tree} {work : Value} {s : Evaluation.State}
    (h : Suspends S κ₀ flags stack env t work) (hs : Evaluation.Holds S.globals s)
    (hP : ∀ n v s', Evaluation.evalBy Evaluation.apart (Evaluation.callBy Evaluation.apart n) env t s
      = .ok v s' → P v) :
  Pending S κ₀ P stack work flags
  := by
  refine ⟨[], stack, rfl, ?_, .inl ⟨env, t, s, h, hs, hP⟩⟩
  intro j hj
  contradiction

/-- Trampolines whose flags are set leave the work pending for those around them. -/
theorem Pending.of_done {work : Value} (h : Pending S κ₀ P stack work flags) {before : List Nat}
    (hbefore : ∀ j ∈ before, ∃ k, flags[j]? = some ⟨k, true⟩) :
  Pending S κ₀ P (before ++ stack) work flags
  := by
  obtain ⟨before', after, rfl, hbefore', hwork⟩ := h
  refine ⟨before ++ before', after, (List.append_assoc _ _ _).symm, ?_, hwork⟩
  intro j hj
  rcases List.mem_append.mp hj with hj | hj
  · exact hbefore j hj
  · exact hbefore' j hj

/-- When a value is handed on, what it comes to is pending. -/
theorem pending_handing
    (hκ₀ : ∀ n v s, Evaluation.callBy Evaluation.apart (n + 1) κ₀ [v] s = .ok v s)
    {κ u : Evaluation.Value} {κ' u' : Value} (hκ : Continues S κ₀ flags stack κ κ')
    (hu : Tracks S u u') {s : Evaluation.State} (hs : Evaluation.Holds S.globals s)
    (hP : ∀ n v s', Evaluation.callBy Evaluation.apart n κ [u] s = .ok v s' → P v) {n : Nat}
    {st st' : State} {v : Value} (hst : HasFlags flags st)
    (h : callBy .lenient S.spaces n (.helper .applyK) [κ', u'] st = .ok v st') :
  Pending S κ₀ P stack v st'.flags
  := by
  obtain ⟨before, after, flags₁, κ₁, rfl, hsettle, hκ₁, hcont, hset, -⟩ :=
    hκ.settle (hκ.length_le fun j hj => hκ.lt_size hj)
  rw [← hst] at hsettle
  match n with
  | 0 => exact absurd h throw_ne_ok
  | 1 =>
    rw [callBy_applyK hsettle] at h
    exact absurd h throw_ne_ok
  | n + 2 =>
    rw [callBy_applyK hsettle] at h
    cases hcont with
    | root =>
      cases h
      exact ⟨before, [], rfl, hset, .inr ⟨rfl, u, hu, hP 1 u s (hκ₀ 0 u s)⟩⟩
    | flag hflag hstack h => exact absurd rfl (hκ₁ _)
    | closure hlive hk hs' hbody henv hlookup hlookup' hcont =>
      obtain ⟨env, t, heval, hmachine⟩ :=
        (defers_cont hlive hk hs' hbody henv hlookup hlookup' hcont _ _ hu).suspends
      obtain ⟨work, hwork, hsuspends⟩ := hmachine .lenient n ⟨flags₁, st.made⟩
      rw [hwork] at h
      cases h
      apply Pending.of_done _ hset
      apply Pending.of_suspends hsuspends hs
      intro m w s' hw
      apply hP (m + 1) w s'
      rw [heval, hw]

/-- When a call on data has a value, evaluation goes on alike, or the trampolines are stranded. -/
theorem pending_call
    (hS : S.Fits) {n : Nat} (ih : ∀ m < n, Returns S κ₀ P m) (hlive : stack ≠ [])
    {f κ : Evaluation.Value} {f' κ' : Value} {args : List Evaluation.Value} {args' : List Value}
    (hf : Tracks S f f') (hargs : List.Forall₂ (Tracks S) args args')
    (hκ : Continues S κ₀ flags stack κ κ') (hsound : ∀ v ∈ args' ++ [κ'], Sound S v)
    {s : Evaluation.State} (hs : Evaluation.Holds S.globals s)
    (hP : ∀ n v s', Evaluation.callBy Evaluation.apart n f (args ++ [κ]) s = .ok v s' → P v)
    {st st' : State} {v : Value} (hst : HasFlags flags st) (hflags : SoundFlags S flags)
    (h : callBy .lenient S.spaces n f' (args' ++ [κ']) st = .ok v st') :
  Pending S κ₀ P stack v st'.flags ∨ Stranded S stack v st'.flags
  := by
  obtain ⟨r, id, id', hr, rfl, rfl⟩ | hdefers | ⟨-, hrefuses⟩ := hf.calls hS hargs hκ hlive
  · obtain ⟨I, hI⟩ := hS.routine hr
    obtain ⟨m, args₁, k, rfl, hlength, hsplit, hbounce⟩ := callBy_entry_cases hS hI h
    rw [hst] at hbounce
    obtain hsame | ⟨rfl, rfl⟩ := hsplit
    · -- the arguments are as many as they should be
      obtain ⟨rfl, hk⟩ := List.append_inj' hsame rfl
      cases hk
      have hlength' : r.params.length = args.length := hlength.trans hargs.length_eq.symm
      have hsuspends := hI.suspends hr hargs hlength' hκ st.made
      have hargs₁ : ∀ v ∈ args', Sound S v := fun v hv => hsound v (List.mem_append_left _ hv)
      have hk : Sound S κ' := hsound κ' (List.mem_append_right _ List.mem_cons_self)
      apply ih (m + 1) (Nat.lt_succ_self _) _ _ _ _ _ _ _ _ hbounce
      · exact ⟨.inr (hI.suspended hargs₁ hk _ _), hflags.push hk⟩
      · apply Pending.of_suspends hsuspends hs
        intro n w s' hw
        apply hP (n + 1) w s'
        have hlengths : (r.params ++ [r.k]).length = (args ++ [κ]).length := by
          rw [List.length_append, List.length_append, hlength']
          rfl
        rw [Routine.value, Evaluation.callBy, if_pos hlengths, hw]
    · -- the continuation is taken for the last argument
      right
      have hsuspended := hI.suspended hsound .identity flags.size st.made
      obtain ⟨i, hi, hbare⟩ := hκ.exists_bare hlive
      apply (bounces hS (m + 1) _ _ _ _ _ ⟨.inr hsuspended, hflags.push .identity⟩ hbounce).2
      left
      refine ⟨hsuspended, flags.size, List.mem_cons_self, i, List.mem_cons_of_mem _ hi, ?_, ?_, ?_⟩
      · exact (Nat.ne_of_lt hbare.lt_size).symm
      · exact Array.getElem?_push_size
      · exact hbare.push _
  · left
    cases n with
    | zero => exact absurd h throw_ne_ok
    | succ n =>
      obtain ⟨env, t, heval, hmachine⟩ := hdefers.suspends
      obtain ⟨work, hwork, hsuspends⟩ := hmachine .lenient n st
      rw [hwork] at h
      cases h
      rw [← hst] at hsuspends
      apply Pending.of_suspends hsuspends hs
      intro m w s' hw
      apply hP (m + 1) w s'
      rw [heval, hw]
  · exact absurd h (hrefuses _ _ _ _ _ _)

/-- Forcing a suspension goes on as evaluation does, or strands the trampolines. -/
theorem pending_force
    (hS : S.Fits) (hκ₀ : ∀ n v s, Evaluation.callBy Evaluation.apart (n + 1) κ₀ [v] s = .ok v s)
    {n : Nat} (ih : ∀ m < n, Returns S κ₀ P m) {env : Evaluation.Env} {t : Tree} {work : Value}
    {st st' : State} {v : Value} (hsuspends : Suspends S κ₀ st.flags stack env t work)
    (hwork : Proper S work st.flags) {s : Evaluation.State} (hs : Evaluation.Holds S.globals s)
    (hP : ∀ n v s', Evaluation.evalBy Evaluation.apart (Evaluation.callBy Evaluation.apart n) env t s
      = .ok v s' → P v)
    (h : callBy .lenient S.spaces n work [] st = .ok v st') :
  Pending S κ₀ P stack v st'.flags ∨ Stranded S stack v st'.flags
  := by
  cases n with
  | zero => exact absurd h throw_ne_ok
  | succ n =>
    cases hsuspends with
    | @intro I k t env env' id ht hcontinued =>
      rw [callBy_suspension ht] at h
      obtain ⟨target', st₁, htarget', h⟩ := bind_eq_ok.mp h
      obtain ⟨hst₁, target, s₁, htarget, htargets, hs₁⟩ :=
        (carried_aim hS.toHandsOn ht hcontinued).back trivial hs rfl htarget'
      have hP' : ∀ n v s', Evaluation.callBy Evaluation.apart n target.1 target.2 s₁ = .ok v s' →
          P v := by
        intro n v s' hv
        apply hP n v s'
        rw [Evaluation.evalBy_tail _ ht, bind_of_ok htarget, hv]
      cases htargets with
      | handing hκ hu =>
        left
        exact pending_handing hκ₀ hκ hu hs₁ (fun n => hP' (n + 1)) hst₁ h
      | call hf hargs hκ =>
        obtain hsound | hsuspended := hwork.work
        · exact absurd hsound not_sound_suspension
        · obtain ⟨hcall, -⟩ := hsuspended.soundCall hS.toHandsOn htarget'
          rw [HasFlags] at hst₁
          apply pending_call hS (fun m hm => ih m (Nat.lt_succ_of_lt hm)) hcontinued.live hf hargs hκ
            hcall.args hs₁ hP' hst₁ hwork.flags h

/-- Trampolines that end give back what the others have to go on with, or strand them. -/
theorem returns
    (hS : S.Fits) (hκ₀ : ∀ n v s, Evaluation.callBy Evaluation.apart (n + 1) κ₀ [v] s = .ok v s)
    (P : Evaluation.Value → Prop) (n : Nat) :
  Returns S κ₀ P n
  := by
  induction n using Nat.strongRecOn with
  | ind n ih =>
    intro i stack work st v st' hwork hpending h
    cases n with
    | zero => exact absurd h throw_ne_ok
    | succ n =>
      rw [callBy_trampoline] at h
      obtain ⟨before, after, hsplit, hset, hrest⟩ := hpending
      split at h
      · rename_i hdone
        cases h
        left
        cases before with
        | nil =>
          obtain ⟨env, t, s, hsuspends, -, -⟩ | ⟨rfl, -⟩ := hrest
          · rw [List.nil_append] at hsplit
            rw [← hsplit] at hsuspends
            rw [hsuspends.unset rfl] at hdone
            contradiction
          · contradiction
        | cons j before =>
          cases hsplit
          exact ⟨before, after, rfl, fun j hj => hset j (List.mem_cons_of_mem _ hj), hrest⟩
      · rename_i hdone
        rw [Watch.lenient, if_pos rfl] at h
        obtain ⟨next, st₁, hnext, h⟩ := bind_eq_ok.mp h
        cases before with
        | nil =>
          obtain ⟨env, t, s, hsuspends, hs, hP⟩ | ⟨rfl, -⟩ := hrest
          · rw [List.nil_append] at hsplit
            rw [← hsplit] at hsuspends
            have hproper := (strands_force hS (fun m _ => bounces hS m) hwork hnext).1
            obtain hpending | hstranded := pending_force hS hκ₀
              (fun m hm => ih m (Nat.lt_succ_of_lt hm)) hsuspends hwork hs hP hnext
            · exact ih n (Nat.lt_succ_self n) i stack next st₁ v st' hproper hpending h
            · exact .inr ((bounces hS n i next st₁ v st' hproper h).2 stack hstranded)
          · contradiction
        | cons j before =>
          cases hsplit
          obtain ⟨k, hk⟩ := hset i List.mem_cons_self
          rw [State.isDone, hk] at hdone
          contradiction

/-- With no trampolines left, evaluation has come to the value at hand. -/
theorem Pending.exists_value {work : Value} (h : Pending S κ₀ P [] work flags) :
  ∃ v, Tracks S v work ∧ P v
  := by
  obtain ⟨before, after, hsplit, -, ⟨env, t, s, hsuspends, -, -⟩ | ⟨-, hv⟩⟩ := h
  · obtain ⟨-, rfl⟩ := List.append_eq_nil_iff.mp hsplit.symm
    cases hsuspends with
    | intro id ht h => exact absurd rfl h.live
  · exact hv

/-- With no trampolines left, none is stranded. -/
theorem not_stranded_nil {work : Value} : ¬ Stranded S [] work flags := by
  rintro (⟨-, i, hi, -⟩ | ⟨-, i, hi, -⟩)
  · contradiction
  · contradiction

/-- If an entry that is called with as many arguments as it has parameters comes to a value, then
evaluation of the routine, which is to hand its value to `κ₀`, has that value. -/
theorem eval_of_entry
    (hS : S.Fits) (hκ₀ : ∀ n v s, Evaluation.callBy Evaluation.apart (n + 1) κ₀ [v] s = .ok v s)
    {r : Routine} (hr : S.routines r) {args : List Evaluation.Value} {args' : List Value}
    (hargs : List.Forall₂ (Tracks S) args args') (hlength : r.params.length = args.length)
    (hsound : ∀ v ∈ args', Sound S v) {s : Evaluation.State} (hs : Evaluation.Holds S.globals s)
    {n id' : Nat} {st st' : State} {v' : Value} (hflags : SoundFlags S st.flags)
    (h : callBy .lenient S.spaces n (S.entryValue r id') args' st = .ok v' st') (id : Nat) :
  ∃ m v s', Evaluation.callBy Evaluation.apart m (r.value id) (args ++ [κ₀]) s = .ok v s'
    ∧ Tracks S v v'
  := by
  obtain ⟨I, hI⟩ := hS.routine hr
  obtain ⟨m, args₁, k, rfl, hlength₁, hsplit, hbounce⟩ := callBy_entry_cases hS hI h
  have hlength' : args'.length = args₁.length := by
    rw [← hlength₁, hlength, hargs.length_eq]
  obtain rfl | ⟨rfl, rfl⟩ := hsplit
  · rw [List.length_append] at hlength'
    exact absurd hlength' (Nat.succ_ne_self _)
  · have hsuspends := hI.suspends hr hargs hlength (.root : Continues S κ₀ st.flags _ _ _) st.made
    have hproper : Proper S _ _ :=
      ⟨.inr (hI.suspended hsound .identity st.flags.size st.made), hflags.push .identity⟩
    let P := fun v => ∃ m s', Evaluation.callBy Evaluation.apart m (r.value id) (args ++ [κ₀]) s
      = .ok v s'
    have hP : ∀ n v s', Evaluation.evalBy Evaluation.apart (Evaluation.callBy Evaluation.apart n)
        (Evaluation.bindings (r.params ++ [r.k]) (args ++ [κ₀]) ++ []) r.body s = .ok v s' →
          P v := by
      intro n v s' hv
      have hlengths : (r.params ++ [r.k]).length = (args ++ [κ₀]).length := by
        rw [List.length_append, List.length_append, hlength]
        rfl
      refine ⟨n + 1, s', ?_⟩
      rw [Routine.value, Evaluation.callBy, if_pos hlengths, hv]
    obtain hpending | hstranded := returns hS hκ₀ P (m + 1) _ [] _ _ _ _ hproper
      (.of_suspends hsuspends hs hP) hbounce
    · obtain ⟨v, hv, m, s', heval⟩ := hpending.exists_value
      exact ⟨m, v, s', heval, hv⟩
    · exact absurd hstranded not_stranded_nil

end Back

end Springboard.Machine
