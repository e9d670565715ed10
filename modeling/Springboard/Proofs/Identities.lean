import Mathlib.Data.List.Forall2
import Springboard.Proofs.Definitions
import Springboard.Proofs.Noting

/-!
# Evaluation up to the identities of functions

Two evaluations of one tree that make their functions under different identities, in environments
that differ in names which the tree does not mention. They go the same way: they visit the same
trees, enter the same functions and stop for the same reasons, and their values differ only in the
identities of functions and in bindings that nothing mentions. The identities of the one evaluation
are paired with those of the other, one to one, so that comparisons of functions come out the same.
-/

namespace Springboard.Evaluation

/-- Which identities of one evaluation go with which of another. -/
abbrev Pairing := Nat → Nat → Prop

/-! ### Values -/

/-- Values that differ only in the identities of functions, as they are paired, and in the values
of names that the functions do not mention. -/
inductive Similar (ρ : Pairing) : Value → Value → Prop
  | number (n : Number) : Similar ρ (.number n) (.number n)
  | nothing : Similar ρ .nothing .nothing
  | closure {id id' : Nat} {env env' : Env} (name : String) (params : List String) (body : Tree)
      (hid : ρ id id')
      (hbound : ∀ x ∈ body.mentioned, (env.lookup x).isSome = (env'.lookup x).isSome)
      (hvalues : ∀ x ∈ body.mentioned, ∀ v v', env.lookup x = some v → env'.lookup x = some v' →
        Similar ρ v v') :
      Similar ρ (.closure id name params body env) (.closure id' name params body env')

/-- The values of a name in two environments are similar, or it has none in either. -/
def SimilarAt (ρ : Pairing) (env env' : Env) (x : String) : Prop :=
  Option.Rel (Similar ρ) (env.lookup x) (env'.lookup x)

section Similar

variable {ρ ρ' : Pairing} {v v' w w' : Value}

/-- Functions of the same code are similar if the names that it mentions are. -/
theorem Similar.of_similarAt
    {id id' : Nat} {env env' : Env} (name : String) (params : List String) {body : Tree}
    (hid : ρ id id') (henv : ∀ x ∈ body.mentioned, SimilarAt ρ env env' x) :
  Similar ρ (.closure id name params body env) (.closure id' name params body env')
  := by
  apply Similar.closure name params body hid
  · intro x hx
    exact (rel_iff_isSome.mp (henv x hx)).1
  · intro x hx
    exact (rel_iff_isSome.mp (henv x hx)).2

/-- Similar values remain so when more identities are paired. -/
theorem Similar.mono (hρ : Subrelation ρ ρ') (h : Similar ρ v v') : Similar ρ' v v' := by
  induction h with
  | number n => exact .number n
  | nothing => exact .nothing
  | closure name params body hid hbound _ ih => exact .closure name params body (hρ hid) hbound ih

/-- Similar lists of values remain so when more identities are paired. -/
theorem Similar.forall₂_mono (hρ : Subrelation ρ ρ') {vs vs' : List Value}
    (h : List.Forall₂ (Similar ρ) vs vs') :
  List.Forall₂ (Similar ρ') vs vs'
  := by
  exact h.imp fun _ _ => Similar.mono hρ

/-- A name with similar values keeps them when more identities are paired. -/
theorem SimilarAt.mono {env env' : Env} {x : String} (hρ : Subrelation ρ ρ')
    (h : SimilarAt ρ env env' x) :
  SimilarAt ρ' env env' x
  := by
  obtain ⟨hbound, hvalues⟩ := rel_iff_isSome.mp h
  exact rel_iff_isSome.mpr ⟨hbound, fun v v' hv hv' => (hvalues v v' hv hv').mono hρ⟩

/-- A name is similar behind bindings in which it is similar too. -/
theorem SimilarAt.append {δ δ' env env' : Env} {x : String} (hδ : SimilarAt ρ δ δ' x)
    (henv : SimilarAt ρ env env' x) :
  SimilarAt ρ (δ ++ env) (δ' ++ env') x
  := by
  unfold SimilarAt at *
  rw [List.lookup_append, List.lookup_append]
  revert hδ
  cases δ.lookup x with
  | none =>
    cases δ'.lookup x with
    | none =>
      intro _
      exact henv
    | some v' =>
      intro hδ
      contradiction
  | some v =>
    cases δ'.lookup x with
    | none =>
      intro hδ
      contradiction
    | some v' =>
      intro hδ
      exact hδ

/-- Parameters have similar values when the arguments are similar. -/
theorem similarAt_bindings {args args' : List Value} (hargs : List.Forall₂ (Similar ρ) args args')
    (params : List String) (x : String) :
  SimilarAt ρ (bindings params args) (bindings params args') x
  := by
  unfold SimilarAt
  obtain ⟨a, a', ha, ha', h⟩ | ⟨ha, ha'⟩ := lookup_bindings hargs params x
  · rw [ha, ha']
    exact .some h
  · rw [ha, ha']
    exact .none

/-- Operators see the same numbers in similar values, and the same value that stands for
nothing. -/
theorem Similar.seen (h : Similar ρ v v') :
  Operand.number? v = Operand.number? v' ∧ Operand.isNothing v = Operand.isNothing v'
  := by
  cases h with
  | number n => exact ⟨rfl, rfl⟩
  | nothing => exact ⟨rfl, rfl⟩
  | closure name params body hid hbound hvalues => exact ⟨rfl, rfl⟩

/-- Similar values count as true together. -/
theorem Similar.isTrue_eq (h : Similar ρ v v') : Operand.isTrue v = Operand.isTrue v' := by
  rw [Operand.isTrue, Operand.isTrue, h.seen.1, h.seen.2]

/-- Similar values have the same negative. -/
theorem Similar.negate_eq (h : Similar ρ v v') : Operand.negate v = Operand.negate v' := by
  rw [Operand.negate, Operand.negate, h.seen.1]

end Similar

/-! ### Operators -/

/-- Pairs of identities are one to one. -/
structure Pairing.OneToOne (ρ : Pairing) : Prop where
  left {a a' b : Nat} : ρ a b → ρ a' b → a = a'
  right {a b b' : Nat} : ρ a b → ρ a b' → b = b'

/-- Two results with the same error or with related values. -/
inductive Agreed {ε α β : Type} (R : α → β → Prop) : Except ε α → Except ε β → Prop
  | ok {a : α} {b : β} (h : R a b) : Agreed R (.ok a) (.ok b)
  | error (e : ε) : Agreed R (.error e) (.error e)

section Operators

variable {ρ : Pairing} {v v' w w' : Value}

/-- Values are the same just when similar values are, if the pairs of identities are one to
one. -/
theorem Similar.same_eq (hρ : ρ.OneToOne) (hv : Similar ρ v v') (hw : Similar ρ w w') :
  Operand.same v w = Operand.same v' w'
  := by
  cases hv with
  | number n => cases hw <;> rfl
  | nothing => cases hw <;> rfl
  | @closure a a' _ _ _ _ _ ha _ _ =>
    cases hw with
    | number n => rfl
    | nothing => rfl
    | @closure b b' _ _ _ _ _ hb _ _ =>
      have hiff : a = b ↔ a' = b' := by
        constructor
        · rintro rfl
          exact hρ.right ha hb
        · rintro rfl
          exact hρ.left ha hb
      show (a == b) = (a' == b')
      rw [Bool.eq_iff_iff, beq_iff_eq, beq_iff_eq, hiff]

/-- Binary operators compute the same from similar values, comparisons of functions included. -/
theorem Similar.apply_eq (hρ : ρ.OneToOne) (hv : Similar ρ v v') (hw : Similar ρ w w')
    (op : BinaryOp) :
  op.apply v w = op.apply v' w'
  := by
  have hequal : Operand.equal v w = Operand.equal v' w' := by
    rw [Operand.equal, Operand.equal, hv.seen.1, hw.seen.1, hv.same_eq hρ hw]
  unfold BinaryOp.apply
  rw [hv.seen.1, hw.seen.1, hequal]

/-- What a binary operator computes is a number, and so similar to itself. -/
theorem similar_of_apply {op : BinaryOp} {z : Value} (h : op.apply v w = .ok z) :
  Similar ρ z z
  := by
  obtain ⟨n, rfl⟩ := BinaryOp.exists_ofNumber h
  exact .number n

/-- Folds agree on similar values. -/
theorem agreed_foldlM (hρ : ρ.OneToOne) (op : BinaryOp) {vs vs' : List Value}
    (hvs : List.Forall₂ (Similar ρ) vs vs') (hv : Similar ρ v v') :
  Agreed (Similar ρ) (vs.foldlM op.apply v) (vs'.foldlM op.apply v')
  := by
  induction hvs generalizing v v' with
  | nil => exact .ok hv
  | cons hw _ ih =>
    rw [List.foldlM_cons, List.foldlM_cons, ← hv.apply_eq hρ hw op]
    cases h : op.apply v _ with
    | error e => exact .error e
    | ok z => exact ih (similar_of_apply h)

/-- Folds over nonempty lists agree on similar values. -/
theorem agreed_fold (hρ : ρ.OneToOne) (op : BinaryOp) {vs vs' : List Value}
    (hvs : List.Forall₂ (Similar ρ) vs vs') :
  Agreed (Similar ρ) (Operator.fold op vs) (Operator.fold op vs')
  := by
  cases hvs with
  | nil => exact .error _
  | cons hv hvs => exact agreed_foldlM hρ op hvs hv

/-- A result that is a number agrees with itself. -/
theorem agreed_of_similar {x y : Except Fault Value} (h : x = y)
    (hx : ∀ z, x = .ok z → Similar ρ z z) :
  Agreed (Similar ρ) x y
  := by
  subst h
  cases x with
  | error e => exact .error e
  | ok z => exact .ok (hx z rfl)

/-- Operators agree on similar values. -/
theorem agreed_evaluate (hρ : ρ.OneToOne) (op : Operator) {vs vs' : List Value}
    (hvs : List.Forall₂ (Similar ρ) vs vs') :
  Agreed (Similar ρ) (op.evaluate vs) (op.evaluate vs')
  := by
  have hnegate : ∀ {v v' : Value}, Similar ρ v v' →
      Agreed (Similar ρ) (Operand.negate v) (Operand.negate v') := by
    intro v v' hv
    apply agreed_of_similar hv.negate_eq
    intro z hz
    obtain ⟨n, rfl⟩ := Operand.exists_ofNumber hz
    exact .number n
  have happly : ∀ (b : BinaryOp) {v v' w w' : Value}, Similar ρ v v' → Similar ρ w w' →
      Agreed (Similar ρ) (b.apply v w) (b.apply v' w') := by
    intro b v v' w w' hv hw
    exact agreed_of_similar (hv.apply_eq hρ hw b) fun z hz => similar_of_apply hz
  unfold Operator.evaluate
  cases op.shape with
  | chain b => exact agreed_fold hρ b hvs
  | difference =>
    rcases hvs with _ | ⟨hv, _ | ⟨hw, hvs⟩⟩
    · exact .error _
    · exact hnegate hv
    · exact agreed_fold hρ .sub (.cons hv (.cons hw hvs))
  | pair b =>
    rcases hvs with _ | ⟨hv, _ | ⟨hw, _ | ⟨hu, hvs⟩⟩⟩
    · exact .error _
    · exact .error _
    · exact happly b hv hw
    · exact .error _
  | denial =>
    rcases hvs with _ | ⟨hv, _ | ⟨hw, hvs⟩⟩
    · exact .error _
    · dsimp only
      rw [hv.isTrue_eq]
      exact .ok (.number _)
    · exact .error _
  | against b n =>
    rcases hvs with _ | ⟨hv, _ | ⟨hw, hvs⟩⟩
    · exact .error _
    · exact happly b hv (.number _)
    · exact .error _

end Operators

/-! ### Evaluations -/

/-- States of two evaluations: the identities that are paired have been given out, one to one, and
the global names have similar values. -/
structure Linked (ρ : Pairing) (s s' : State) : Prop where
  made {a b : Nat} : ρ a b → a < s.made ∧ b < s'.made
  oneToOne : ρ.OneToOne
  globals (x : String) : SimilarAt ρ s.globals s'.globals x

/-- Outcomes of two evaluations that began with the given visits: they made the same visits since,
and stopped for the same reason or have related values. Their states are linked. -/
inductive SameCourse {α β : Type} (ρ : Pairing) (R : Pairing → α → β → Prop)
    (past past' : List Visit) :
    EStateM.Result Stop Noted α → EStateM.Result Stop Noted β → Prop
  | ok {ρ' : Pairing} {s s' : State} {a : α} {b : β} (visits : List Visit) (hρ : Subrelation ρ ρ')
      (hs : Linked ρ' s s') (h : R ρ' a b) :
      SameCourse ρ R past past' (.ok a ⟨s, past ++ visits⟩) (.ok b ⟨s', past' ++ visits⟩)
  | error {ρ' : Pairing} {s s' : State} (e : Stop) (visits : List Visit) (hρ : Subrelation ρ ρ')
      (hs : Linked ρ' s s') :
      SameCourse ρ R past past' (.error e ⟨s, past ++ visits⟩) (.error e ⟨s', past' ++ visits⟩)

/-- From states that are linked under the pairing or a larger one, the two go the same way. -/
def Alike {α β : Type} (ρ : Pairing) (R : Pairing → α → β → Prop) (x : Noting α)
    (y : Noting β) : Prop :=
  ∀ ρ' s s' past past', Subrelation ρ ρ' → Linked ρ' s s' →
    SameCourse ρ' R past past' (x ⟨s, past⟩) (y ⟨s', past'⟩)

section Alike

variable {α β γ δ : Type} {ρ ρ' : Pairing}

/-- Two values without further visits. -/
theorem SameCourse.of_ok
    {R : Pairing → α → β → Prop} {past past' : List Visit} {s s' : State} {a : α} {b : β}
    (hρ : Subrelation ρ ρ') (hs : Linked ρ' s s') (h : R ρ' a b) :
  SameCourse ρ R past past' (.ok a ⟨s, past⟩) (.ok b ⟨s', past'⟩)
  := by
  have hcourse : SameCourse ρ R past past' (.ok a ⟨s, past ++ []⟩) (.ok b ⟨s', past' ++ []⟩) :=
    .ok [] hρ hs h
  rwa [List.append_nil, List.append_nil] at hcourse

/-- Two failures without further visits. -/
theorem SameCourse.of_error
    {R : Pairing → α → β → Prop} {past past' : List Visit} {s s' : State} (e : Stop)
    (hs : Linked ρ s s') :
  SameCourse ρ R past past' (.error e ⟨s, past⟩) (.error e ⟨s', past'⟩)
  := by
  have hcourse : SameCourse ρ R past past' (.error e ⟨s, past ++ []⟩)
      (.error e ⟨s', past' ++ []⟩) := .error e [] id hs
  rwa [List.append_nil, List.append_nil] at hcourse

/-- What goes the same way still does when more identities are paired. -/
theorem Alike.mono {R : Pairing → α → β → Prop} {x : Noting α} {y : Noting β}
    (hρ : Subrelation ρ ρ') (h : Alike ρ R x y) :
  Alike ρ' R x y
  := by
  intro ρ₁ s s' past past' hρ₁ hs
  exact h ρ₁ s s' past past' (fun hab => hρ₁ (hρ hab)) hs

/-- Values that stay related go the same way. -/
theorem Alike.pure {R : Pairing → α → β → Prop} {a : α} {b : β}
    (h : ∀ ρ', Subrelation ρ ρ' → R ρ' a b) :
  Alike ρ R (pure a) (pure b)
  := by
  intro ρ' s s' past past' hρ hs
  exact .of_ok id hs (h ρ' hρ)

/-- The same failure goes the same way. -/
theorem Alike.throw (R : Pairing → α → β → Prop) (e : Stop) :
  Alike ρ R (throw e) (throw e)
  := by
  intro ρ' s s' past past' _ hs
  exact .of_error e hs

/-- Sequences go the same way when their parts do. -/
theorem Alike.bind
    {R : Pairing → α → β → Prop} {Q : Pairing → γ → δ → Prop}
    {x : Noting α} {y : Noting β} {f : α → Noting γ} {g : β → Noting δ}
    (h : Alike ρ R x y)
    (hfg : ∀ ρ' a b, Subrelation ρ ρ' → R ρ' a b → Alike ρ' Q (f a) (g b)) :
  Alike ρ Q (x >>= f) (y >>= g)
  := by
  intro ρ₀ s s' past past' hρ₀ hs
  have hcourse := h ρ₀ s s' past past' hρ₀ hs
  cases hx : x ⟨s, past⟩ with
  | error e r =>
    rw [hx] at hcourse
    cases hy : y ⟨s', past'⟩ with
    | ok b r' =>
      rw [hy] at hcourse
      cases hcourse
    | error e' r' =>
      rw [hy] at hcourse
      rw [bind_of_error hx, bind_of_error hy]
      cases hcourse with
      | error e visits hρ₁ hs₁ => exact .error e visits hρ₁ hs₁
  | ok a r =>
    rw [hx] at hcourse
    cases hy : y ⟨s', past'⟩ with
    | error e' r' =>
      rw [hy] at hcourse
      cases hcourse
    | ok b r' =>
      rw [hy] at hcourse
      rw [bind_of_ok hx, bind_of_ok hy]
      cases hcourse with
      | @ok ρ₁ s₁ s₁' _ _ visits hρ₁ hs₁ hab =>
        -- the visits of the second part come after those of the first
        have hrest := hfg ρ₁ a b (fun h => hρ₁ (hρ₀ h)) hab ρ₁ s₁ s₁' (past ++ visits)
          (past' ++ visits) id hs₁
        revert hrest
        generalize f a ⟨s₁, past ++ visits⟩ = r₁
        generalize g b ⟨s₁', past' ++ visits⟩ = r₁'
        rintro (⟨later, hρ₂, hs₂, h₂⟩ | ⟨e, later, hρ₂, hs₂⟩)
        · rw [List.append_assoc, List.append_assoc]
          exact .ok (visits ++ later) (fun h => hρ₂ (hρ₁ h)) hs₂ h₂
        · rw [List.append_assoc, List.append_assoc]
          exact .error e (visits ++ later) (fun h => hρ₂ (hρ₁ h)) hs₂

/-- Notes go the same way. -/
theorem Alike.after_note {R : Pairing → α → β → Prop} {x : Noting α} {y : Noting β}
    (h : Alike ρ R x y) (visit : Visit) :
  Alike ρ R (note visit >>= fun _ => x) (note visit >>= fun _ => y)
  := by
  have hnote : Alike ρ (fun _ _ _ => True) (note visit) (note visit) := by
    intro ρ' s s' past past' _ hs
    exact .ok [visit] id hs trivial
  exact hnote.bind fun ρ' _ _ hρ _ => h.mono hρ

/-- Results that agree go the same way. -/
theorem alike_attempt {R : Pairing → α → β → Prop} {x : Except Fault α} {y : Except Fault β}
    (h : ∀ ρ', Subrelation ρ ρ' → Pairing.OneToOne ρ' → Agreed (R ρ') x y) :
  Alike ρ R (quietly (attempt x)) (quietly (attempt y))
  := by
  intro ρ' s s' past past' hρ hs
  cases h ρ' hρ hs.oneToOne with
  | ok hab => exact .of_ok id hs hab
  | error e => exact .of_error _ hs

/-- Names with similar values are looked up alike. -/
theorem alike_lookup {env env' : Env} {x : String} (hx : SimilarAt ρ env env' x) :
  Alike ρ Similar (quietly (lookup env x)) (quietly (lookup env' x))
  := by
  intro ρ' s s' past past' hρ hs
  have hlocal := hx.mono hρ
  have hglobal := hs.globals x
  unfold SimilarAt at hlocal hglobal
  have hget : ∀ {s : State}, (get : Eval State) s = .ok s s := rfl
  unfold quietly lookup
  revert hlocal
  cases env.lookup x with
  | some v =>
    cases env'.lookup x with
    | some v' =>
      rintro (h | -)
      exact .of_ok id hs h
    | none =>
      intro h
      contradiction
  | none =>
    cases env'.lookup x with
    | some v' =>
      intro h
      contradiction
    | none =>
      intro _
      dsimp only
      rw [bind_of_ok hget, bind_of_ok hget]
      revert hglobal
      cases s.globals.lookup x with
      | some v =>
        cases s'.globals.lookup x with
        | some v' =>
          rintro (h | -)
          exact .of_ok id hs h
        | none =>
          intro h
          contradiction
      | none =>
        cases s'.globals.lookup x with
        | some v' =>
          intro h
          contradiction
        | none =>
          intro _
          exact .of_error _ hs

/-- The pairing with one more pair. -/
def Pairing.insert (ρ : Pairing) (a b : Nat) : Pairing := fun a' b' =>
  ρ a' b' ∨ (a' = a ∧ b' = b)

/-- States stay linked when each makes one more function, under identities that are paired. -/
theorem Linked.insert {s s' : State} (h : Linked ρ s s') :
  Linked (ρ.insert s.made s'.made) { s with made := s.made + 1 } { s' with made := s'.made + 1 }
  := by
  refine ⟨?_, ⟨?_, ?_⟩, ?_⟩
  · rintro a b (hab | ⟨rfl, rfl⟩)
    · have := h.made hab
      exact ⟨by simp only; omega, by simp only; omega⟩
    · exact ⟨Nat.lt_succ_self _, Nat.lt_succ_self _⟩
  · rintro a a' b (hab | ⟨rfl, rfl⟩) (hab' | ⟨rfl, hb⟩)
    · exact h.oneToOne.left hab hab'
    · have := (h.made hab).2
      omega
    · have := (h.made hab').2
      omega
    · rfl
  · rintro a b b' (hab | ⟨rfl, rfl⟩) (hab' | ⟨ha, rfl⟩)
    · exact h.oneToOne.right hab hab'
    · have := (h.made hab).1
      omega
    · have := (h.made hab').1
      omega
    · rfl
  · intro x
    exact (h.globals x).mono Or.inl

/-- Functions of the same code are made alike if the names that it mentions have similar values. -/
theorem alike_makeClosure {env env' : Env} (name : String) (params : List String) {body : Tree}
    (henv : ∀ x ∈ body.mentioned, SimilarAt ρ env env' x) :
  Alike ρ Similar (quietly (makeClosure name params body env))
    (quietly (makeClosure name params body env'))
  := by
  intro ρ' s s' past past' hρ hs
  have hclosure : Similar (Pairing.insert ρ' s.made s'.made)
      (.closure s.made name params body env) (.closure s'.made name params body env') := by
    apply Similar.of_similarAt name params (Or.inr ⟨rfl, rfl⟩)
    intro x hx
    exact (henv x hx).mono fun h => Or.inl (hρ h)
  exact .of_ok Or.inl hs.insert hclosure

/-- Similar values are given to global names alike. -/
theorem alike_define (name : String) {v v' : Value} (hv : Similar ρ v v') :
  Alike ρ (fun _ _ _ => True) (quietly (define name v)) (quietly (define name v'))
  := by
  intro ρ' s s' past past' hρ hs
  have hglobals : ∀ x, SimilarAt ρ' ((name, v) :: s.globals.filter fun b => b.1 != name)
      ((name, v') :: s'.globals.filter fun b => b.1 != name) x := by
    intro x
    unfold SimilarAt
    rw [lookup_cons_filter, lookup_cons_filter]
    split
    · exact .some (hv.mono hρ)
    · exact hs.globals x
  have hlinked : Linked ρ' { s with globals := (name, v) :: s.globals.filter fun b => b.1 != name }
      { s' with globals := (name, v') :: s'.globals.filter fun b => b.1 != name } :=
    ⟨hs.made, hs.oneToOne, hglobals⟩
  exact .of_ok id hlinked trivial

end Alike

/-- Calls of similar functions with similar arguments go the same way. -/
def CallsAlike (call call' : Value → List Value → Noting Value) : Prop :=
  ∀ {ρ : Pairing} {f f' : Value} {args args' : List Value}, Similar ρ f f' →
    List.Forall₂ (Similar ρ) args args' → Alike ρ Similar (call f args) (call' f' args')

mutual

/-- The evaluations of a tree go the same way where the names that it mentions have similar
values. -/
theorem alike_evalNoting {call call' : Value → List Value → Noting Value}
    (hcall : CallsAlike call call') :
    ∀ (t : Tree) {ρ : Pairing} {env env' : Env}, (∀ x ∈ t.mentioned, SimilarAt ρ env env' x) →
      Alike ρ Similar (evalNoting call env t) (evalNoting call' env' t)
  | .literal n, ρ, env, env', _ => by
      rw [evalNoting, evalNoting]
      apply Alike.after_note
      exact .pure fun _ _ => .number n
  | .var name, ρ, env, env', h => by
      rw [evalNoting, evalNoting]
      apply Alike.after_note
      exact alike_lookup (h name (List.mem_singleton_self name))
  | .operation op operands, ρ, env, env', h => by
      rw [evalNoting, evalNoting]
      apply Alike.after_note
      apply (alike_evalAllNoting hcall operands h).bind
      intro ρ₁ values values' _ hvalues
      apply alike_attempt
      intro ρ₂ hρ₂ hone
      exact agreed_evaluate hone op (Similar.forall₂_mono hρ₂ hvalues)
  | .conditional _ test conseq alt, ρ, env, env', h => by
      rw [Tree.mentioned] at h
      simp only [List.mem_append, or_imp, forall_and] at h
      obtain ⟨⟨htest, hconseq⟩, halt⟩ := h
      rw [evalNoting, evalNoting]
      apply Alike.after_note
      apply (alike_evalNoting hcall test htest).bind
      intro ρ₁ decision decision' hρ₁ hdecision
      rw [hdecision.isTrue_eq]
      split
      · exact alike_evalNoting hcall conseq fun x hx => (hconseq x hx).mono hρ₁
      · exact alike_evalNoting hcall alt fun x hx => (halt x hx).mono hρ₁
  | .abstraction params body, ρ, env, env', h => by
      rw [Tree.mentioned] at h
      rw [evalNoting, evalNoting]
      apply Alike.after_note
      exact alike_makeClosure "fn" params h
  | .definition name params body _, ρ, env, env', h => by
      rw [Tree.mentioned] at h
      rw [evalNoting, evalNoting]
      apply Alike.after_note
      apply (alike_makeClosure name params h).bind
      intro ρ₁ closure closure' _ hclosure
      apply (alike_define name hclosure).bind
      intro ρ₂ _ _ hρ₂ _
      exact .pure fun ρ₃ hρ₃ => hclosure.mono fun hab => hρ₃ (hρ₂ hab)
  | .application rator rands, ρ, env, env', h => by
      rw [Tree.mentioned] at h
      simp only [List.mem_append, or_imp, forall_and] at h
      obtain ⟨hrator, hrands⟩ := h
      rw [evalNoting, evalNoting]
      apply Alike.after_note
      apply (alike_evalNoting hcall rator hrator).bind
      intro ρ₁ function function' hρ₁ hfunction
      apply (alike_evalAllNoting hcall rands fun x hx => (hrands x hx).mono hρ₁).bind
      intro ρ₂ args args' hρ₂ hargs
      exact hcall (hfunction.mono hρ₂) hargs
  | .blank, ρ, env, env', _ | .continuation _ _, ρ, env, env', _ | .resumption _ _, ρ, env, env', _
  | .entry _ _ _ _ _, ρ, env, env', _ | .program _ _, ρ, env, env', _ | .nothing, ρ, env, env', _
  | .number _, ρ, env, env', _ | .text _, ρ, env, env', _ | .list _, ρ, env, env', _
  | .tuple _, ρ, env, env', _ => by
      simp only [evalNoting]
      apply Alike.after_note
      apply Alike.throw

/-- The evaluations of some trees go the same way where the names that they mention have similar
values. -/
theorem alike_evalAllNoting {call call' : Value → List Value → Noting Value}
    (hcall : CallsAlike call call') :
    ∀ (ts : List Tree) {ρ : Pairing} {env env' : Env},
      (∀ x ∈ Tree.mentionedAll ts, SimilarAt ρ env env' x) →
      Alike ρ (fun ρ => List.Forall₂ (Similar ρ)) (evalAllNoting call env ts)
        (evalAllNoting call' env' ts)
  | [], ρ, env, env', _ => by
      rw [evalAllNoting, evalAllNoting]
      exact .pure fun _ _ => .nil
  | t :: ts, ρ, env, env', h => by
      rw [Tree.mentionedAll] at h
      simp only [List.mem_append, or_imp, forall_and] at h
      obtain ⟨ht, hts⟩ := h
      rw [evalAllNoting, evalAllNoting]
      apply (alike_evalNoting hcall t ht).bind
      intro ρ₁ first first' hρ₁ hfirst
      apply (alike_evalAllNoting hcall ts fun x hx => (hts x hx).mono hρ₁).bind
      intro ρ₂ rest rest' hρ₂ hrest
      exact .pure fun ρ₃ hρ₃ => .cons (hfirst.mono fun hab => hρ₃ (hρ₂ hab))
        (Similar.forall₂_mono hρ₃ hrest)

end

/-- Calls with the same fuel go the same way. -/
theorem alike_callNoting (fuel : Nat) : CallsAlike (callNoting fuel) (callNoting fuel) := by
  induction fuel with
  | zero =>
    intro ρ f f' args args' _ _
    apply Alike.throw
  | succ fuel ih =>
    intro ρ f f' args args' hf hargs
    cases hf with
    | number n => apply Alike.throw
    | nothing => apply Alike.throw
    | closure name params body hid hbound hvalues =>
      rw [callNoting, callNoting, hargs.length_eq]
      split
      · apply Alike.after_note
        apply alike_evalNoting ih body
        intro x hx
        exact (similarAt_bindings hargs params x).append
          (rel_iff_isSome.mpr ⟨hbound x hx, hvalues x hx⟩)
      · apply Alike.throw

/-! ### Functions that have been made -/

/-- When `n` functions have been made, those in a value are among them. -/
inductive Value.Known (n : Nat) : Value → Prop
  | number (m : Number) : Known n (.number m)
  | nothing : Known n .nothing
  | closure {id : Nat} {env : Env} (name : String) (params : List String) (body : Tree)
      (hid : id < n) (henv : ∀ b ∈ env, Known n b.2) :
      Known n (.closure id name params body env)

/-- All values of an environment are known. -/
def Env.Known (n : Nat) (env : Env) : Prop :=
  ∀ b ∈ env, b.2.Known n

/-- The functions in the values of global names have been made. -/
def State.Known (s : State) : Prop :=
  Env.Known s.made s.globals

section Known

variable {n m : Nat}

/-- What is known remains so when more functions are made. -/
theorem Value.Known.mono (hnm : n ≤ m) {v : Value} (h : v.Known n) : v.Known m := by
  induction h with
  | number k => exact .number k
  | nothing => exact .nothing
  | closure name params body hid _ ih =>
    exact .closure name params body (Nat.lt_of_lt_of_le hid hnm) ih

/-- What an environment knows remains known when more functions are made. -/
theorem Env.Known.mono (hnm : n ≤ m) {env : Env} (h : Env.Known n env) : Env.Known m env := by
  intro b hb
  exact (h b hb).mono hnm

/-- The values of names are known. -/
theorem Env.Known.lookup {env : Env} (h : Env.Known n env) {x : String} {v : Value}
    (hx : env.lookup x = some v) :
  v.Known n
  := by
  obtain ⟨before, after, rfl, -⟩ := List.lookup_eq_some_iff.mp hx
  exact h (x, v) (by simp)

/-- The identities below a number, each paired with itself. -/
def Pairing.upTo (n : Nat) : Pairing := fun a b => a = b ∧ a < n

/-- A known value is similar to itself. -/
theorem Value.Known.similar {v : Value} (h : v.Known n) : Similar (Pairing.upTo n) v v := by
  induction h with
  | number k => exact .number k
  | nothing => exact .nothing
  | @closure id env name params body hid henv ih =>
    apply Similar.of_similarAt name params ⟨rfl, hid⟩
    intro x _
    rw [SimilarAt, rel_iff_isSome]
    refine ⟨rfl, ?_⟩
    intro v v' hv hv'
    obtain rfl : v = v' := Option.some.inj (hv.symm.trans hv')
    obtain ⟨before, after, rfl, -⟩ := List.lookup_eq_some_iff.mp hv
    exact ih (x, v) (by simp)

/-- In an environment that is known, names have values similar to themselves. -/
theorem Env.Known.similarAt {env : Env} (h : Env.Known n env) (x : String) :
  SimilarAt (Pairing.upTo n) env env x
  := by
  rw [SimilarAt, rel_iff_isSome]
  refine ⟨rfl, ?_⟩
  intro v v' hv hv'
  obtain rfl : v = v' := Option.some.inj (hv.symm.trans hv')
  exact (h.lookup hv).similar

/-- A state that is known is linked with itself. -/
theorem State.Known.linked {s : State} (h : s.Known) : Linked (Pairing.upTo s.made) s s := by
  refine ⟨?_, ⟨?_, ?_⟩, ?_⟩
  · rintro a b ⟨rfl, ha⟩
    exact ⟨ha, ha⟩
  · rintro a a' b ⟨rfl, -⟩ ⟨rfl, -⟩
    rfl
  · rintro a b b' ⟨rfl, -⟩ ⟨rfl, -⟩
    rfl
  · exact Env.Known.similarAt h

/-- From states that are known, in which `n` functions have been made, `x` goes to such states, and
its values have the property `R` there. -/
structure Keeps {α : Type} (n : Nat) (R : Nat → α → Prop) (x : Eval α) : Prop where
  ok {s s₁ : State} {a : α} : n ≤ s.made → s.Known → x s = .ok a s₁ →
    s.made ≤ s₁.made ∧ s₁.Known ∧ R s₁.made a
  error {s s₁ : State} {e : Stop} : n ≤ s.made → s.Known → x s = .error e s₁ →
    s.made ≤ s₁.made ∧ s₁.Known

variable {α β : Type} {R : Nat → α → Prop} {Q : Nat → β → Prop}

/-- A value leaves states as they are. -/
theorem Keeps.pure {a : α} (h : ∀ m, n ≤ m → R m a) : Keeps n R (pure a) := by
  constructor
  · rintro s s₁ a' hn hs ⟨⟩
    exact ⟨Nat.le_refl _, hs, h _ hn⟩
  · rintro s s₁ e hn hs ⟨⟩

/-- A failure leaves states as they are. -/
theorem Keeps.throw (e : Stop) : Keeps n R (throw e) := by
  constructor
  · rintro s s₁ a hn hs ⟨⟩
  · rintro s s₁ e hn hs ⟨⟩
    exact ⟨Nat.le_refl _, hs⟩

/-- Sequences keep states known when their parts do. -/
theorem Keeps.bind {x : Eval α} {f : α → Eval β} (hx : Keeps n R x)
    (hf : ∀ m a, n ≤ m → R m a → Keeps m Q (f a)) :
  Keeps n Q (x >>= f)
  := by
  constructor
  · intro s s₂ b hn hs h
    obtain ⟨a, s₁, ha, hb⟩ := bind_eq_ok.mp h
    obtain ⟨hle, hs₁, hR⟩ := hx.ok hn hs ha
    obtain ⟨hle', hs₂, hQ⟩ := (hf _ a (Nat.le_trans hn hle) hR).ok (Nat.le_refl _) hs₁ hb
    exact ⟨Nat.le_trans hle hle', hs₂, hQ⟩
  · intro s s₂ e hn hs h
    cases hx₁ : x s with
    | error e₁ s₁ =>
      rw [bind_of_error hx₁] at h
      cases h
      exact hx.error hn hs hx₁
    | ok a s₁ =>
      rw [bind_of_ok hx₁] at h
      obtain ⟨hle, hs₁, hR⟩ := hx.ok hn hs hx₁
      obtain ⟨hle', hs₂⟩ := (hf _ a (Nat.le_trans hn hle) hR).error (Nat.le_refl _) hs₁ h
      exact ⟨Nat.le_trans hle hle', hs₂⟩

/-- Folds compute known values from known values. -/
theorem known_of_foldlM {op : BinaryOp} {values : List Value} {first v : Value}
    (hfirst : first.Known n) (h : values.foldlM op.apply first = .ok v) :
  v.Known n
  := by
  induction values generalizing first with
  | nil =>
    cases h
    exact hfirst
  | cons w values ih =>
    rw [List.foldlM_cons] at h
    cases hw : op.apply first w with
    | error e =>
      rw [hw] at h
      contradiction
    | ok u =>
      rw [hw] at h
      obtain ⟨k, rfl⟩ := BinaryOp.exists_ofNumber hw
      exact ih (.number k) h

/-- Operators compute known values from known values. -/
theorem known_of_evaluate {op : Operator} {values : List Value} {v : Value}
    (hvalues : ∀ v ∈ values, v.Known n) (h : op.evaluate values = .ok v) :
  v.Known n
  := by
  have hfold : ∀ {b : BinaryOp}, Operator.fold b values = .ok v → v.Known n := by
    intro b hb
    cases values with
    | nil => contradiction
    | cons first rest => exact known_of_foldlM (hvalues first List.mem_cons_self) hb
  have happly : ∀ {b : BinaryOp} {x y : Value}, b.apply x y = .ok v → v.Known n := by
    intro b x y hb
    obtain ⟨k, rfl⟩ := BinaryOp.exists_ofNumber hb
    exact .number k
  unfold Operator.evaluate at h
  split at h
  · exact hfold h
  · obtain ⟨k, rfl⟩ := Operand.exists_ofNumber h
    exact .number k
  · exact hfold h
  · exact happly h
  · cases h
    exact .number _
  · exact happly h
  · contradiction

/-- Operators compute known values from known values, and leave states as they are. -/
theorem keeps_evaluate (op : Operator) {values : List Value} (h : ∀ v ∈ values, v.Known n) :
  Keeps n (fun m v => v.Known m) (attempt (op.evaluate values))
  := by
  cases hv : op.evaluate values with
  | error e => apply Keeps.throw
  | ok v => exact .pure fun m hm => (known_of_evaluate h hv).mono hm

/-- Names are looked up to known values. -/
theorem keeps_lookup {env : Env} (h : Env.Known n env) (x : String) :
  Keeps n (fun m v => v.Known m) (lookup env x)
  := by
  unfold lookup
  cases hx : env.lookup x with
  | some v => exact .pure fun m hm => (h.lookup hx).mono hm
  | none =>
    have hget : ∀ {s : State}, (get : Eval State) s = .ok s s := rfl
    constructor
    · intro s s₁ v hn hs hv
      dsimp only at hv
      rw [bind_of_ok hget] at hv
      cases hglobal : s.globals.lookup x with
      | none =>
        rw [hglobal] at hv
        contradiction
      | some w =>
        rw [hglobal] at hv
        cases hv
        exact ⟨Nat.le_refl _, hs, Env.Known.lookup hs hglobal⟩
    · intro s s₁ e hn hs he
      dsimp only at he
      rw [bind_of_ok hget] at he
      cases hglobal : s.globals.lookup x with
      | none =>
        rw [hglobal] at he
        cases he
        exact ⟨Nat.le_refl _, hs⟩
      | some w =>
        rw [hglobal] at he
        contradiction

/-- A function that is made is known afterwards. -/
theorem keeps_makeClosure {env : Env} (h : Env.Known n env) (name : String) (params : List String)
    (body : Tree) :
  Keeps n (fun m v => v.Known m) (makeClosure name params body env)
  := by
  constructor
  · rintro s s₁ v hn hs ⟨⟩
    refine ⟨Nat.le_succ _, Env.Known.mono (Nat.le_succ _) hs, ?_⟩
    exact .closure name params body (Nat.lt_succ_self _) (h.mono (Nat.le_succ_of_le hn))
  · rintro s s₁ e hn hs ⟨⟩

/-- A global name can be given a known value. -/
theorem keeps_define (name : String) {v : Value} (h : v.Known n) :
  Keeps n (fun _ _ => True) (define name v)
  := by
  constructor
  · rintro s s₁ _ hn hs ⟨⟩
    refine ⟨Nat.le_refl _, ?_, trivial⟩
    intro b hb
    obtain rfl | hb := List.mem_cons.mp hb
    · exact h.mono hn
    · exact hs b (List.mem_filter.mp hb).1
  · rintro s s₁ e hn hs ⟨⟩

end Known

mutual

/-- The evaluation of a tree keeps states known, and its value is known. -/
theorem keeps_evalWith {call : Value → List Value → Eval Value}
    (hcall : ∀ {n f args}, f.Known n → (∀ a ∈ args, a.Known n) →
      Keeps n (fun m v => v.Known m) (call f args)) :
    ∀ (t : Tree) {n : Nat} {env : Env}, Env.Known n env →
      Keeps n (fun m v => v.Known m) (evalWith call env t)
  | .literal k, n, env, _ => by
      rw [evalWith]
      exact .pure fun m _ => .number k
  | .var name, n, env, h => by
      rw [evalWith]
      exact keeps_lookup h name
  | .operation op operands, n, env, h => by
      rw [evalWith]
      apply (keeps_evalAll hcall operands h).bind
      intro m values _ hvalues
      exact keeps_evaluate op hvalues
  | .conditional _ test conseq alt, n, env, h => by
      rw [evalWith]
      apply (keeps_evalWith hcall test h).bind
      intro m decision hm _
      split
      · exact keeps_evalWith hcall conseq (h.mono hm)
      · exact keeps_evalWith hcall alt (h.mono hm)
  | .abstraction params body, n, env, h => by
      rw [evalWith]
      exact keeps_makeClosure h "fn" params body
  | .definition name params body _, n, env, h => by
      rw [evalWith]
      apply (keeps_makeClosure h name params body).bind
      intro m closure _ hclosure
      apply (keeps_define name hclosure).bind
      intro k _ hk _
      exact .pure fun l hl => hclosure.mono (Nat.le_trans hk hl)
  | .application rator rands, n, env, h => by
      rw [evalWith]
      apply (keeps_evalWith hcall rator h).bind
      intro m function hm hfunction
      apply (keeps_evalAll hcall rands (h.mono hm)).bind
      intro k args hk hargs
      exact hcall (hfunction.mono hk) hargs
  | .blank, n, env, _ | .continuation _ _, n, env, _ | .resumption _ _, n, env, _
  | .entry _ _ _ _ _, n, env, _ | .program _ _, n, env, _ | .nothing, n, env, _
  | .number _, n, env, _ | .text _, n, env, _ | .list _, n, env, _ | .tuple _, n, env, _ => by
      simp only [evalWith]
      apply Keeps.throw

/-- The evaluation of some trees keeps states known, and their values are known. -/
theorem keeps_evalAll {call : Value → List Value → Eval Value}
    (hcall : ∀ {n f args}, f.Known n → (∀ a ∈ args, a.Known n) →
      Keeps n (fun m v => v.Known m) (call f args)) :
    ∀ (ts : List Tree) {n : Nat} {env : Env}, Env.Known n env →
      Keeps n (fun m vs => ∀ v ∈ vs, v.Known m) (evalAll call env ts)
  | [], n, env, _ => by
      rw [evalAll]
      exact .pure fun m _ v hv => absurd hv List.not_mem_nil
  | t :: ts, n, env, h => by
      rw [evalAll]
      apply (keeps_evalWith hcall t h).bind
      intro m first hm hfirst
      apply (keeps_evalAll hcall ts (h.mono hm)).bind
      intro k rest hk hrest
      apply Keeps.pure
      intro l hl v hv
      obtain rfl | hv := List.mem_cons.mp hv
      · exact hfirst.mono (Nat.le_trans hk hl)
      · exact (hrest v hv).mono hl

end

/-- Calls keep states known, and their values are known. -/
theorem keeps_call (fuel : Nat) {n : Nat} {f : Value} {args : List Value} (hf : f.Known n)
    (hargs : ∀ a ∈ args, a.Known n) :
  Keeps n (fun m v => v.Known m) (call fuel f args)
  := by
  induction fuel generalizing n f args with
  | zero => apply Keeps.throw
  | succ fuel ih =>
    cases hf with
    | number k => apply Keeps.throw
    | nothing => apply Keeps.throw
    | @closure id env name params body hid henv =>
      rw [call]
      split
      · apply keeps_evalWith ih body
        intro b hb
        obtain hb | hb := List.mem_append.mp hb
        · exact hargs b.2 (List.of_mem_zip (List.mem_reverse.mp hb)).2
        · exact henv b hb
      · apply Keeps.throw

end Springboard.Evaluation
