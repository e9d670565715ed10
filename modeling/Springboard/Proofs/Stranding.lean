import Springboard.Proofs.Bouncing

/-!
# Stranded trampolines

An entry that is given one argument too few takes the continuation for its last argument and the
identity for the continuation. Where evaluation fails the machine runs on: the value of the routine
reaches a trampoline that still waits for its own flag. Such a run never comes to an end with a
value. What is kept along it is a tally of the unset flags that wrap the identity: each of them
needs a value to be handed to the identity, and too few of the works at hand are suspensions that
could do so.
-/

namespace Springboard.Machine

/-- The watch that keeps functions apart and lets trampolines force anything. -/
def Watch.lenient : Watch :=
  ⟨apart, fun _ => true⟩

/-! ### Values in a run -/

/-- The values that names can have in a run, whether or not calls have the right arguments. -/
inductive Sound (S : Setting) : Value → Prop
  | number (n : Number) : Sound S (.number n)
  | flag (i : Nat) : Sound S (.flag i)
  | identity : Sound S (.helper .identity)
  | entry {r : Routine} (hr : S.routines r) (id : Nat) : Sound S (S.entryValue r id)
  | closure {I : Idiom S.ident S.ak} {k : String} {body : Tree} {params : List String} {env : Env}
      (id : Nat) (own : Option String) (hI : S.Admits I) (hk : I.cont k)
      (hbody : Fragment I (.tail k) body) (hparams : params ≠ [])
      (hnames : ∀ x ∈ params ++ own.toList, x ≠ S.ident S.ak)
      (hak : env.lookup (S.ident S.ak) = none) (henv : ∀ b ∈ env, Sound S b.2) :
      Sound S (.closure id S.home own params (.lambda [] (codeOf S.ident body)) env)

/-- Suspensions whose names have sound values. -/
inductive Suspended (S : Setting) : Value → Prop
  | intro {I : Idiom S.ident S.ak} {k : String} {t : Tree} {env : Env} (id : Nat)
      (hI : S.Admits I) (hk : I.cont k) (ht : Fragment I (.tail k) t)
      (hak : env.lookup (S.ident S.ak) = none) (henv : ∀ b ∈ env, Sound S b.2) :
      Suspended S (.closure id S.home none [] (codeOf S.ident t) env)

/-- Flags that wrap sound values. -/
def SoundFlags (S : Setting) (flags : Array Flag) : Prop :=
  ∀ (i : Nat) (f : Flag), flags[i]? = some f → Sound S f.k

/-- Calls that code can make in a run. -/
inductive SoundCall (S : Setting) : Value → List Value → Prop
  | data {f : Value} {args : List Value} (hf : Sound S f) (hargs : ∀ v ∈ args, Sound S v) :
      SoundCall S f args
  | handing {k v : Value} (hk : Sound S k) (hv : Sound S v) :
      SoundCall S (.helper .applyK) [k, v]

/-- Computations whose values are sound and that leave the flags alone. -/
def Yields (S : Setting) (x : Run Value) : Prop :=
  ∀ st v st', x st = .ok v st' → Sound S v ∧ st'.flags = st.flags

section Values

variable {S : Setting} {I : Idiom S.ident S.ak} {env : Env}

/-- A value under a name of the environment is one of its values. -/
theorem sound_of_lookup (henv : ∀ b ∈ env, Sound S b.2) {x : String} {v : Value}
    (h : env.lookup x = some v) :
  Sound S v
  := by
  obtain ⟨before, after, rfl, -⟩ := List.lookup_eq_some_iff.mp h
  exact henv (x, v) (List.mem_append_right _ List.mem_cons_self)

/-- The names of an idiom have sound values. -/
theorem yields_lookup (hI : S.Admits I) (henv : ∀ b ∈ env, Sound S b.2) {x : String}
    (hx : I.data x ∨ I.cont x) :
  Yields S (lookup S.space env (S.ident x))
  := by
  intro st v st' hv
  obtain ⟨hfind, rfl⟩ := lookup_eq_ok.mp hv
  refine ⟨?_, rfl⟩
  rw [find, Option.or_eq_some_iff] at hfind
  obtain hlocal | ⟨-, hglobal⟩ := hfind
  · exact sound_of_lookup henv hlocal
  · obtain ⟨r, id, hr, rfl⟩ := hI x v hx hglobal
    exact .entry hr id

/-- Sequences yield sound values when their parts do. -/
theorem Yields.bind {x : Run Value} {f : Value → Run Value} (hx : Yields S x)
    (hf : ∀ v, Sound S v → Yields S (f v)) :
  Yields S (x >>= f)
  := by
  intro st w st' hw
  obtain ⟨v, st₁, hv, hw⟩ := bind_eq_ok.mp hw
  obtain ⟨hv, hst₁⟩ := hx st v st₁ hv
  obtain ⟨hw, hst'⟩ := hf v hv st₁ w st' hw
  exact ⟨hw, hst'.trans hst₁⟩

/-- A number is a sound value. -/
theorem yields_attempt {x : Except Fault Value} (h : ∀ v, x = .ok v → ∃ n, v = .number n) :
  Yields S (attempt x)
  := by
  intro st v st' hv
  obtain ⟨hx, rfl⟩ := attempt_eq_ok.mp hv
  obtain ⟨n, rfl⟩ := h v hx
  exact ⟨.number n, rfl⟩

/-- A new function with a suspended body is a sound value. -/
theorem yields_lambda
    (call : Value → List Value → Run Value) (hI : S.Admits I)
    (henv : ∀ b ∈ env, Sound S b.2) (hak : env.lookup (S.ident S.ak) = none) {k : String}
    (hk : I.cont k) {body : Tree} (hbody : Fragment I (.tail k) body) {params : List String}
    (hne : params ≠ []) (hparams : ∀ x ∈ params, I.data x ∨ I.cont x) :
  Yields S (execBy apart call S.home S.space env (codeOf S.ident (.abstraction params body)))
  := by
  intro st v st' hv
  rw [codeOf, execBy] at hv
  cases hv
  refine ⟨?_, rfl⟩
  apply Sound.closure _ none hI hk hbody _ _ hak henv
  · rw [ne_eq, List.map_eq_nil_iff]
    exact hne
  · intro x hx
    rw [Option.toList_none, List.append_nil] at hx
    obtain ⟨y, hy, rfl⟩ := List.mem_map.mp hx
    exact I.helper (hparams y hy)

/-- Values and continuations are sound. -/
theorem yields_fragment
    (call : Value → List Value → Run Value) (hI : S.Admits I)
    (henv : ∀ b ∈ env, Sound S b.2) (hak : env.lookup (S.ident S.ak) = none) {role : Role}
    {t : Tree} (ht : Fragment I role t) (htail : ∀ k, role ≠ .tail k)
    (hcont : ∀ k, role = .cont k → I.cont k) :
  Yields S (execBy apart call S.home S.space env (codeOf S.ident t))
  := by
  refine of_fragment (P := fun code => Yields S (execBy apart call S.home S.space env code))
    ?_ ?_ ?_ ?_ ?_ ?_ ?_ ht htail hcont
  · intro n st v st' hv
    rw [execBy] at hv
    cases hv
    exact ⟨.number n, rfl⟩
  · intro x hx
    rw [execBy]
    exact yields_lookup hI henv hx
  · intro params k body hne hparams hk hbody
    exact yields_lambda call hI henv hak hk hbody hne hparams
  · intro a ha
    rw [execBy]
    apply ha.bind
    intro v _
    apply yields_attempt
    intro w hw
    exact exists_number_of_negate hw
  · intro a ha
    rw [execBy]
    apply ha.bind
    intro v _ st w st' hw
    obtain ⟨rfl, rfl⟩ := pure_eq_ok.mp hw
    exact ⟨.number _, rfl⟩
  · intro op a b ha hb
    rw [execBy]
    apply ha.bind
    intro v _
    apply hb.bind
    intro w _
    apply yields_attempt
    intro u hu
    exact exists_number_of_apply (BinaryOp.apply_of_apart hu)
  · intro test conseq alt htest hconseq halt
    rw [execBy]
    apply htest.bind
    intro v _
    split
    · exact hconseq
    · exact halt

/-- The arguments of a tail are sound. -/
theorem sound_args
    {args : List Code} (h : ∀ code ∈ args, Yields S (execBy apart noCall S.home S.space env code))
    {st st' : State} {vs : List Value}
    (hvs : execAllBy apart noCall S.home S.space env args st = .ok vs st') :
  (∀ v ∈ vs, Sound S v) ∧ st'.flags = st.flags
  := by
  induction args generalizing st vs with
  | nil =>
    rw [execAllBy] at hvs
    obtain ⟨rfl, rfl⟩ := pure_eq_ok.mp hvs
    refine ⟨?_, rfl⟩
    intro v hv
    contradiction
  | cons code args ih =>
    obtain ⟨v, vs, st₁, rfl, hv, hvs⟩ := execAllBy_cons.mp hvs
    obtain ⟨hv, hst₁⟩ := h code List.mem_cons_self st v st₁ hv
    obtain ⟨hvs, hst'⟩ := ih (fun code hcode => h code (List.mem_cons_of_mem _ hcode)) hvs
    exact ⟨List.forall_mem_cons.mpr ⟨hv, hvs⟩, hst'.trans hst₁⟩

/-- A tail aims at a call that code can make. -/
theorem soundCall_of_aim
    (hS : S.HandsOn) (hI : S.Admits I) (henv : ∀ b ∈ env, Sound S b.2)
    (hak : env.lookup (S.ident S.ak) = none) {k : String} (hk : I.cont k) {t : Tree}
    (ht : Fragment I (.tail k) t) {st st' : State} {target : Value × List Value}
    (h : aim apart S.home S.space env (codeOf S.ident t) st = .ok target st') :
  SoundCall S target.1 target.2 ∧ st'.flags = st.flags
  := by
  have hvalue : ∀ {t}, Fragment I .value t →
      Yields S (execBy apart noCall S.home S.space env (codeOf S.ident t)) := by
    intro t ht
    exact yields_fragment noCall hI henv hak ht (by simp) (by simp)
  have hcont : ∀ {t}, Fragment I (.cont k) t →
      Yields S (execBy apart noCall S.home S.space env (codeOf S.ident t)) := by
    intro t ht
    apply yields_fragment noCall hI henv hak ht (by simp)
    intro k' heq
    cases heq
    exact hk
  induction ht using Fragment.tail_induction generalizing st with
  | handed hk' hv =>
    rw [codeOf, aim, codeOf, execBy] at h
    obtain ⟨f, st₁, hf, h⟩ := bind_eq_ok.mp h
    obtain ⟨vs, st₂, hvs, h⟩ := bind_eq_ok.mp h
    obtain ⟨rfl, rfl⟩ := pure_eq_ok.mp h
    obtain ⟨hfind, rfl⟩ := lookup_eq_ok.mp hf
    rw [find_of_none hak, hS.space] at hfind
    cases hfind
    rw [codesOf, codesOf, codesOf] at hvs
    obtain ⟨κ, vs, st₃, rfl, hκ, hvs⟩ := execAllBy_cons.mp hvs
    obtain ⟨v, rfl, hv'⟩ := execAllBy_singleton.mp hvs
    obtain ⟨hκ, hst₃⟩ := hcont hk' _ _ _ hκ
    obtain ⟨hv', hst₂⟩ := hvalue hv _ _ _ hv'
    exact ⟨.handing hκ hv', hst₂.trans hst₃⟩
  | @call rator cont rands hrator hrands hcont' =>
    rw [codeOf, aim] at h
    obtain ⟨f, st₁, hf, h⟩ := bind_eq_ok.mp h
    obtain ⟨vs, st₂, hvs, h⟩ := bind_eq_ok.mp h
    obtain ⟨rfl, rfl⟩ := pure_eq_ok.mp h
    obtain ⟨hf, hst₁⟩ := hvalue hrator _ _ _ hf
    have hargs : ∀ code ∈ codesOf S.ident (rands ++ [cont]),
        Yields S (execBy apart noCall S.home S.space env code) := by
      intro code hcode
      rw [codesOf_eq_map] at hcode
      obtain ⟨t, ht, rfl⟩ := List.mem_map.mp hcode
      rcases List.mem_append.mp ht with ht | ht
      · exact hvalue (hrands t ht)
      · cases List.mem_singleton.mp ht
        exact hcont hcont'
    obtain ⟨hvs, hst₂⟩ := sound_args hargs hvs
    exact ⟨.data hf hvs, hst₂.trans hst₁⟩
  | branch htest _ _ ihconseq ihalt =>
    rw [codeOf, aim] at h
    obtain ⟨v, st₁, hv, h⟩ := bind_eq_ok.mp h
    obtain ⟨-, hst₁⟩ := hvalue htest _ _ _ hv
    split at h
    · obtain ⟨hcall, hst'⟩ := ihconseq h
      exact ⟨hcall, hst'.trans hst₁⟩
    · obtain ⟨hcall, hst'⟩ := ihalt h
      exact ⟨hcall, hst'.trans hst₁⟩

/-- The arguments of a call that code makes are sound. -/
theorem SoundCall.args {f : Value} {args : List Value} (h : SoundCall S f args) :
  ∀ v ∈ args, Sound S v
  := by
  cases h with
  | data hf hargs => exact hargs
  | handing hk hv =>
    intro u hu
    rcases List.mem_pair.mp hu with rfl | rfl
    · exact hk
    · exact hv

/-- A suspension is no value that a name can have. -/
theorem not_sound_suspension {id : Nat} {code : Code} :
  ¬ Sound S (.closure id S.home none [] code env)
  := by
  intro h
  generalize hwork : Value.closure id S.home none [] code env = work at h
  cases h with
  | closure id' own hI hk hbody hparams hnames hak henv =>
    cases hwork
    exact hparams rfl
  | _ => contradiction

/-- A sound suspension aims at a call that code can make. -/
theorem Suspended.soundCall
    (hS : S.HandsOn) {id : Nat} {code : Code}
    (h : Suspended S (.closure id S.home none [] code env)) {st st' : State}
    {target : Value × List Value} (htarget : aim apart S.home S.space env code st = .ok target st') :
  SoundCall S target.1 target.2 ∧ st'.flags = st.flags
  := by
  generalize hwork : Value.closure id S.home none [] code env = work at h
  cases h with
  | intro id' hI hk ht hak henv =>
    cases hwork
    exact soundCall_of_aim hS hI henv hak hk ht htarget

end Values

/-! ### Flags around the identity -/

/-- An unset flag that wraps the identity. -/
def Bare (flags : Array Flag) (i : Nat) : Prop :=
  flags[i]? = some ⟨.helper .identity, false⟩

/-- Two bare flags on a stack. -/
def BarePair (flags : Array Flag) (stack : List Nat) : Prop :=
  ∃ i ∈ stack, ∃ j ∈ stack, i ≠ j ∧ Bare flags i ∧ Bare flags j

/-- Works with which the trampolines on a stack cannot all end: a suspension among two of them that
wait for a value to be handed to the identity, or a value with one that waits. -/
def Stranded (S : Setting) (stack : List Nat) (work : Value) (flags : Array Flag) : Prop :=
  (Suspended S work ∧ BarePair flags stack) ∨ (Sound S work ∧ ∃ i ∈ stack, Bare flags i)

/-- A bare flag is not the next one to be made. -/
theorem Bare.lt_size {flags : Array Flag} {i : Nat} (h : Bare flags i) : i < flags.size := by
  obtain ⟨hlt, -⟩ := Array.getElem?_eq_some_iff.mp h
  exact hlt

/-- A bare flag remains when another is made. -/
theorem Bare.push {flags : Array Flag} {i : Nat} (h : Bare flags i) (f : Flag) :
  Bare (flags.push f) i
  := by
  rw [Bare, Array.getElem?_push_lt h.lt_size, ← Array.getElem?_eq_getElem h.lt_size]
  exact h

/-- A new flag around a sound value leaves the flags sound. -/
theorem SoundFlags.push {S : Setting} {flags : Array Flag} (h : SoundFlags S flags) {k : Value}
    (hk : Sound S k) :
  SoundFlags S (flags.push ⟨k, false⟩)
  := by
  intro i f hf
  rw [Array.getElem?_push] at hf
  split at hf
  · cases hf
    exact hk
  · exact h i f hf

/-- Settling goes from sound values to sound values. It sets at most one bare flag, and that only if
it comes to the identity. -/
theorem settle_sound
    {S : Setting} {steps : Nat} {flags flags' : Array Flag} {k k' : Value}
    (hflags : SoundFlags S flags) (hk : Sound S k) (h : settle steps flags k = (flags', k')) :
  SoundFlags S flags' ∧ Sound S k'
    ∧ ∃ c, ∀ i, Bare flags i → Bare flags' i ∨ i = c ∧ k' = .helper .identity
  := by
  induction steps generalizing flags k with
  | zero =>
    cases h
    exact ⟨hflags, hk, 0, fun i hi => .inl hi⟩
  | succ steps ih =>
    cases k with
    | flag index =>
      rw [settle] at h
      cases hf : flags[index]? with
      | none =>
        rw [hf] at h
        cases h
        exact ⟨hflags, hk, 0, fun i hi => .inl hi⟩
      | some f =>
        rw [hf] at h
        dsimp only at h
        have hset : SoundFlags S (flags.setIfInBounds index ⟨f.k, true⟩) := by
          intro i g hg
          rw [Array.getElem?_setIfInBounds] at hg
          split at hg
          · split at hg
            · cases hg
              exact hflags index f hf
            · contradiction
          · exact hflags i g hg
        have hother : ∀ i ≠ index, Bare flags i →
            Bare (flags.setIfInBounds index ⟨f.k, true⟩) i := by
          intro i hne hi
          rw [Bare, Array.getElem?_setIfInBounds_ne hne.symm]
          exact hi
        obtain ⟨hflags', hk', c, hc⟩ := ih hset (hflags index f hf) h
        refine ⟨hflags', hk', ?_⟩
        by_cases hident : f.k = .helper .identity
        · -- settling ends here, and sets this flag
          have hend : settle steps (flags.setIfInBounds index ⟨f.k, true⟩) f.k
              = (flags.setIfInBounds index ⟨f.k, true⟩, .helper .identity) := by
            rw [hident]
            cases steps <;> rfl
          rw [hend] at h
          cases h
          use index
          intro i hi
          by_cases hne : i = index
          · exact .inr ⟨hne, rfl⟩
          · exact .inl (hother i hne hi)
        · use c
          intro i hi
          apply hc i
          apply hother i _ hi
          rintro rfl
          rw [Bare, hf] at hi
          cases hi
          exact hident rfl
    | _ =>
      cases h
      exact ⟨hflags, hk, 0, fun i hi => .inl hi⟩

/-! ### Runs -/

/-- What a trampoline works with, and the flags. -/
structure Proper (S : Setting) (work : Value) (flags : Array Flag) : Prop where
  work : Sound S work ∨ Suspended S work
  flags : SoundFlags S flags

/-- A trampoline that ends within so much fuel gives back something to work with, and strands those
around it if it was stranded among them. -/
def Bounces (S : Setting) (n : Nat) : Prop :=
  ∀ i work st v st', Proper S work st.flags →
    callBy .lenient S.spaces n (.helper .trampoline) [work, .flag i] st = .ok v st' →
      Proper S v st'.flags
        ∧ ∀ stack, Stranded S (i :: stack) work st.flags → Stranded S stack v st'.flags

section Runs

variable {S : Setting} {r : Routine} {I : Idiom S.ident S.ak}

/-- Parameters are bound to sound arguments. -/
theorem sound_bindings {params : List String} {args : List Value} (hargs : ∀ v ∈ args, Sound S v)
    {b : String × Value} (hb : b ∈ bindings params args) :
  Sound S b.2
  := by
  exact hargs b.2 (List.of_mem_zip hb).2

/-- What a function gives back when it is called on sound arguments is a sound suspension. -/
theorem suspended_body
    {k : String} {body : Tree} {params : List String} {env : Env} (own : Option String)
    (made id : Nat) (hI : S.Admits I) (hk : I.cont k) (hbody : Fragment I (.tail k) body)
    (hparams : params ≠ []) (hnames : ∀ x ∈ params ++ own.toList, x ≠ S.ident S.ak)
    (hak : env.lookup (S.ident S.ak) = none) (henv : ∀ b ∈ env, Sound S b.2) {args : List Value}
    (hargs : ∀ v ∈ args, Sound S v) :
  Suspended S (.closure made S.home none [] (codeOf S.ident body)
    (bindings params args ++ ((own.map fun x => (x, Value.closure id S.home own params
      (.lambda [] (codeOf S.ident body)) env)).toList ++ env)))
  := by
  apply Suspended.intro _ hI hk hbody
  · rw [lookup_called, hak]
    intro hmem
    exact hnames _ hmem rfl
  · intro b hb
    rcases List.mem_append.mp hb with hb | hb
    · exact sound_bindings hargs hb
    · rcases List.mem_append.mp hb with hb | hb
      · obtain ⟨x, -, rfl⟩ := Option.map_eq_some_iff.mp (Option.mem_toList.mp hb)
        exact .closure id own hI hk hbody hparams hnames hak henv
      · exact henv b hb

/-- The first suspension of a routine is sound if its arguments are. -/
theorem Setting.Suits.suspended
    (h : S.Suits r I) {args : List Value} (hargs : ∀ v ∈ args, Sound S v) {k : Value}
    (hk : Sound S k) (j made : Nat) :
  Suspended S (S.launched r args k j made)
  := by
  have hsound : ∀ {k}, Sound S k → ∀ v ∈ args ++ [k], Sound S v := by
    intro k hk v hv
    rcases List.mem_append.mp hv with hv | hv
    · exact hargs v hv
    · cases List.mem_singleton.mp hv
      exact hk
  refine suspended_body (some (S.ident r.own)) (made + 1) made h.admits h.k h.body ?_
    (fun x => h.ne_helper_inner) (h.lookup_innerEnv j) ?_ (hsound (.flag j))
  · rw [ne_eq, List.map_eq_nil_iff]
    exact List.append_ne_nil_of_right_ne_nil _ (List.cons_ne_nil _ _)
  · intro b hb
    rcases List.mem_cons.mp hb with rfl | hb
    · exact .flag j
    · exact sound_bindings (hsound hk) hb

/-- A call of an entry that has a value bounces on a sound suspension, with a new flag around one of
the arguments or around the identity. -/
theorem entry_of_ok
    (hS : S.Fits) (hr : S.routines r) {args : List Value} (hargs : ∀ v ∈ args, Sound S v)
    {n id : Nat} {st st' : State} {v : Value} (hflags : SoundFlags S st.flags)
    (h : callBy .lenient S.spaces n (S.entryValue r id) args st = .ok v st') :
  ∃ m work k made, m < n ∧ Suspended S work ∧ SoundFlags S (st.flags.push ⟨k, false⟩)
    ∧ (args = [] → k = .helper .identity)
    ∧ callBy .lenient S.spaces m (.helper .trampoline) [work, .flag st.flags.size]
      ⟨st.flags.push ⟨k, false⟩, made⟩ = .ok v st'
  := by
  obtain ⟨I, hI⟩ := hS.routine hr
  obtain ⟨m, args₁, k, rfl, -, hsplit, hbounce⟩ := callBy_entry_cases hS hI h
  have hsound : (∀ v ∈ args₁, Sound S v) ∧ Sound S k ∧ (args = [] → k = .helper .identity) := by
    obtain rfl | ⟨rfl, rfl⟩ := hsplit
    · refine ⟨?_, ?_, ?_⟩
      · intro v hv
        exact hargs v (List.mem_append_left _ hv)
      · exact hargs k (List.mem_append_right _ List.mem_cons_self)
      · intro hnil
        exact absurd (List.append_eq_nil_iff.mp hnil).2 (List.cons_ne_nil _ _)
    · exact ⟨hargs, .identity, fun _ => rfl⟩
  obtain ⟨hargs₁, hk, hident⟩ := hsound
  exact ⟨m + 1, _, k, _, Nat.lt_succ_self _, hI.suspended hargs₁ hk _ _, hflags.push hk, hident,
    hbounce⟩

/-- Two bare flags remain when a trampoline is started. -/
theorem BarePair.push {flags : Array Flag} {stack : List Nat} (h : BarePair flags stack) (f : Flag) :
  BarePair (flags.push f) (flags.size :: stack)
  := by
  obtain ⟨i, hi, j, hj, hne, hbare, hbare'⟩ := h
  exact ⟨i, List.mem_cons_of_mem _ hi, j, List.mem_cons_of_mem _ hj, hne, hbare.push f,
    hbare'.push f⟩

/-- A call of a sound value that has a value itself: with two bare flags around it, the trampolines
remain stranded. -/
theorem strands_data
    (hS : S.Fits) {n : Nat} (ih : ∀ m < n, Bounces S m) {f : Value} (hf : Sound S f)
    {args : List Value} (hargs : ∀ v ∈ args, Sound S v) {st st' : State} {v : Value}
    (hflags : SoundFlags S st.flags)
    (h : callBy .lenient S.spaces n f args st = .ok v st') :
  Proper S v st'.flags ∧ ∀ stack, BarePair st.flags stack → Stranded S stack v st'.flags
  := by
  cases n with
  | zero => exact absurd h throw_ne_ok
  | succ n =>
    cases hf with
    | number n => exact absurd h throw_ne_ok
    | flag i => exact absurd h throw_ne_ok
    | identity =>
      match args with
      | [u] =>
        have hu : Sound S u := hargs u List.mem_cons_self
        cases h
        refine ⟨⟨.inl hu, hflags⟩, ?_⟩
        rintro stack ⟨i, hi, -, -, -, hbare, -⟩
        exact .inr ⟨hu, i, hi, hbare⟩
      | [] => exact absurd h throw_ne_ok
      | _ :: _ :: _ => exact absurd h throw_ne_ok
    | entry hr id =>
      obtain ⟨m, work, k, made, hm, hwork, hflags', -, hbounce⟩ := entry_of_ok hS hr hargs hflags h
      obtain ⟨hproper, hstranded⟩ := ih m hm _ work ⟨_, made⟩ v st' ⟨.inr hwork, hflags'⟩ hbounce
      refine ⟨hproper, ?_⟩
      intro stack hpair
      exact hstranded stack (.inl ⟨hwork, hpair.push _⟩)
    | @closure I k body params env id own hI hk hbody hparams hnames hak henv =>
      by_cases hlength : params.length = args.length
      · rw [callBy_suspending _ _ _ _ _ _ _ _ hlength] at h
        cases h
        have hsuspended := suspended_body own st.made id hI hk hbody hparams hnames hak henv hargs
        refine ⟨⟨.inr hsuspended, hflags⟩, ?_⟩
        intro stack hpair
        exact .inl ⟨hsuspended, hpair⟩
      · exact absurd h (callBy_closure_ne_ok hlength)

/-- A call that code makes: with two bare flags around it, the trampolines remain stranded. -/
theorem strands_call
    (hS : S.Fits) {n : Nat} (ih : ∀ m < n, Bounces S m) {f : Value} {args : List Value}
    (hcall : SoundCall S f args) {st st' : State} {v : Value} (hflags : SoundFlags S st.flags)
    (h : callBy .lenient S.spaces n f args st = .ok v st') :
  Proper S v st'.flags ∧ ∀ stack, BarePair st.flags stack → Stranded S stack v st'.flags
  := by
  cases hcall with
  | data hf hargs => exact strands_data hS ih hf hargs hflags h
  | @handing k u hk hu =>
    cases n with
    | zero => exact absurd h throw_ne_ok
    | succ n =>
      have hsettle : ∃ flags₁ k₁, settle st.flags.size st.flags k = (flags₁, k₁) := ⟨_, _, rfl⟩
      obtain ⟨flags₁, k₁, hsettle⟩ := hsettle
      rw [callBy_applyK hsettle] at h
      obtain ⟨hflags₁, hk₁, c, hc⟩ := settle_sound hflags hk hsettle
      have hargs : ∀ v ∈ [u], Sound S v := by
        intro v hv
        cases List.mem_singleton.mp hv
        exact hu
      obtain ⟨hproper, hstranded⟩ :=
        strands_data hS (fun m hm => ih m (Nat.lt_succ_of_lt hm)) hk₁ hargs hflags₁ h
      refine ⟨hproper, ?_⟩
      rintro stack ⟨i, hi, j, hj, hne, hbare, hbare'⟩
      by_cases hident : k₁ = .helper .identity
      · -- the value is given back, and one of the two flags is still bare
        subst hident
        cases n with
        | zero => exact absurd h throw_ne_ok
        | succ n =>
          cases h
          right
          refine ⟨hu, ?_⟩
          obtain hbare₁ | ⟨rfl, -⟩ := hc i hbare
          · exact ⟨i, hi, hbare₁⟩
          · obtain hbare₁ | ⟨rfl, -⟩ := hc j hbare'
            · exact ⟨j, hj, hbare₁⟩
            · exact absurd rfl hne
      · have hkept : ∀ i, Bare st.flags i → Bare flags₁ i := by
          intro i hi
          obtain hbare | ⟨-, hk₁⟩ := hc i hi
          · exact hbare
          · exact absurd hk₁ hident
        exact hstranded stack ⟨i, hi, j, hj, hne, hkept i hbare, hkept j hbare'⟩

/-- What is forced gives something to work with, and remains stranded. -/
theorem strands_force
    (hS : S.Fits) {n : Nat} (ih : ∀ m < n, Bounces S m) {work : Value} {st st' : State} {v : Value}
    (hwork : Proper S work st.flags) (h : callBy .lenient S.spaces n work [] st = .ok v st') :
  Proper S v st'.flags
    ∧ ∀ stack, Stranded S stack work st.flags → Stranded S stack v st'.flags
  := by
  -- a suspension makes the call that it aims at
  have hsuspension : Suspended S work → Proper S v st'.flags
      ∧ ∀ stack, BarePair st.flags stack → Stranded S stack v st'.flags := by
    intro hsuspended
    cases hsuspended with
    | intro id hI hk ht hak henv =>
      cases n with
      | zero => exact absurd h throw_ne_ok
      | succ n =>
        rw [callBy_suspension ht] at h
        obtain ⟨target, st₁, htarget, h⟩ := bind_eq_ok.mp h
        obtain ⟨hcall, hst₁⟩ := soundCall_of_aim hS.toHandsOn hI henv hak hk ht htarget
        rw [← hst₁]
        apply strands_call hS (fun m hm => ih m (Nat.lt_succ_of_lt hm)) hcall _ h
        rw [hst₁]
        exact hwork.flags
  -- of the other values only an entry without parameters can be forced, and it makes a bare flag
  have hvalue : Sound S work → Proper S v st'.flags
      ∧ ∀ stack, (∃ i ∈ stack, Bare st.flags i) → Stranded S stack v st'.flags := by
    intro hsound
    cases n with
    | zero => exact absurd h throw_ne_ok
    | succ n =>
      cases hsound with
      | number n => exact absurd h throw_ne_ok
      | flag i => exact absurd h throw_ne_ok
      | identity => exact absurd h throw_ne_ok
      | closure id own hI hk hbody hparams hnames hak henv =>
        apply absurd h
        apply callBy_closure_ne_ok
        intro hlength
        exact hparams (List.length_eq_zero_iff.mp hlength)
      | entry hr id =>
        obtain ⟨m, work, k, made, hm, hwork', hflags, hk, hbounce⟩ :=
          entry_of_ok hS hr (by simp) hwork.flags h
        obtain ⟨hproper, hstranded⟩ := ih m hm _ work ⟨_, made⟩ v st' ⟨.inr hwork', hflags⟩ hbounce
        refine ⟨hproper, ?_⟩
        rintro stack ⟨i, hi, hbare⟩
        apply hstranded stack
        left
        refine ⟨hwork', st.flags.size, List.mem_cons_self, i, List.mem_cons_of_mem _ hi, ?_, ?_, ?_⟩
        · exact (Nat.ne_of_lt hbare.lt_size).symm
        · rw [hk rfl]
          exact Array.getElem?_push_size
        · exact hbare.push _
  constructor
  · obtain hsound | hsuspended := hwork.work
    · exact (hvalue hsound).1
    · exact (hsuspension hsuspended).1
  · rintro stack (⟨hsuspended, hpair⟩ | ⟨hsound, hbare⟩)
    · exact (hsuspension hsuspended).2 stack hpair
    · exact (hvalue hsound).2 stack hbare

/-- Trampolines give back something to work with, and strand those around them if they are
stranded. -/
theorem bounces (hS : S.Fits) (n : Nat) : Bounces S n := by
  induction n using Nat.strongRecOn with
  | ind n ih =>
    intro i work st v st' hwork h
    cases n with
    | zero => exact absurd h throw_ne_ok
    | succ n =>
      rw [callBy_trampoline] at h
      split at h
      · rename_i hdone
        cases h
        refine ⟨hwork, ?_⟩
        -- the flag is set, so it is none of the bare ones
        have hset : ¬ Bare st.flags i := by
          intro hbare
          rw [State.isDone, hbare] at hdone
          contradiction
        have hrest : ∀ {j stack}, j ∈ i :: stack → Bare st.flags j → j ∈ stack := by
          intro j stack hj hbare
          rcases List.mem_cons.mp hj with rfl | hj
          · exact absurd hbare hset
          · exact hj
        rintro stack (⟨hsuspended, j, hj, j', hj', hne, hbare, hbare'⟩ | ⟨hsound, j, hj, hbare⟩)
        · exact .inl ⟨hsuspended, j, hrest hj hbare, j', hrest hj' hbare', hne, hbare, hbare'⟩
        · exact .inr ⟨hsound, j, hrest hj hbare, hbare⟩
      · rw [Watch.lenient, if_pos rfl] at h
        obtain ⟨next, st₁, hnext, h⟩ := bind_eq_ok.mp h
        obtain ⟨hproper, hstranded⟩ :=
          strands_force hS (fun m hm => ih m (Nat.lt_succ_of_lt hm)) hwork hnext
        obtain ⟨hproper', hstranded'⟩ := ih n (Nat.lt_succ_self n) i next st₁ v st' hproper h
        exact ⟨hproper', fun stack hs => hstranded' stack (hstranded (i :: stack) hs)⟩

end Runs

end Springboard.Machine
