import Springboard.Proofs.Activation

/-!
# Runs side by side

Two runs of the machine that go the same way. They start alike, but one flag wraps different
continuations in them. No name leads to that continuation other than through the flag: in the entry
that was given it, the inner function has a parameter of the same name. So the values that names
have are alike in both runs, and what is computed from them is alike too.
-/

namespace Springboard.Machine

/-! ### Values that are alike -/

/-- Values that are alike: the same value, or the same function made with bindings that are alike
wherever neither its parameters nor its own name hide them. -/
inductive Alike : Value → Value → Prop
  | same (v : Value) : Alike v v
  | closure {env env' : Env} (id home : Nat) (own : Option String) (params : List String)
      (body : Code)
      (hbound : ∀ x ∉ params ++ own.toList, (env.lookup x).isSome = (env'.lookup x).isSome)
      (hvalues : ∀ x v v', x ∉ params ++ own.toList → env.lookup x = some v →
        env'.lookup x = some v' → Alike v v') :
      Alike (.closure id home own params body env) (.closure id home own params body env')

section Alike

variable {v v' w w' : Value}

/-- Operators see the same in values that are alike. -/
theorem Alike.seen (h : Alike v v') :
  Operand.number? v' = Operand.number? v ∧ Operand.isNothing v' = Operand.isNothing v
    ∧ v'.identity? = v.identity?
  := by
  cases h with
  | same v => exact ⟨rfl, rfl, rfl⟩
  | closure id home own params body hbound hvalues => exact ⟨rfl, rfl, rfl⟩

/-- Values that are alike count as true together. -/
theorem Alike.isTrue_eq (h : Alike v v') : Operand.isTrue v' = Operand.isTrue v := by
  obtain ⟨hnumber, hnothing, -⟩ := h.seen
  rw [Operand.isTrue, Operand.isTrue, hnumber, hnothing]

/-- Values that are alike have the same negative. -/
theorem Alike.negate_eq (h : Alike v v') : Operand.negate v' = Operand.negate v := by
  obtain ⟨hnumber, -, -⟩ := h.seen
  rw [Operand.negate, Operand.negate, hnumber]

/-- Binary operators compute the same from values that are alike, comparisons of functions
included. -/
theorem Alike.apply_eq (hv : Alike v v') (hw : Alike w w') (op : BinaryOp) :
  op.apply v' w' = op.apply v w
  := by
  obtain ⟨hnumber, -, hidentity⟩ := hv.seen
  obtain ⟨hnumber', -, hidentity'⟩ := hw.seen
  have hsame : Operand.same v' w' = Operand.same v w := by
    show (v'.identity? == w'.identity?) = (v.identity? == w.identity?)
    rw [hidentity, hidentity']
  have hequal : Operand.equal v' w' = Operand.equal v w := by
    rw [Operand.equal, Operand.equal, hnumber, hnumber', hsame]
  unfold BinaryOp.apply
  rw [hnumber, hnumber', hequal]

end Alike

/-! ### Values of twin runs -/

/-- The values that a name can have in two runs which differ in what the flag `j` wraps. Flags that
are older than it occur in none of them. -/
inductive Twins (S : Setting) (j : Nat) : Value → Value → Prop
  | number (n : Number) : Twins S j (.number n) (.number n)
  | flag {i : Nat} (hi : j ≤ i) : Twins S j (.flag i) (.flag i)
  | identity : Twins S j (.helper .identity) (.helper .identity)
  | entry {r : Routine} (hr : S.routines r) (id : Nat) :
      Twins S j (S.entryValue r id) (S.entryValue r id)
  | closure {I : Idiom S.ident S.ak} {k : String} {body : Tree} {params : List String}
      {env env' : Env} (id : Nat) (own : Option String) (hI : S.Admits I) (hk : I.cont k)
      (hbody : Fragment I (.tail k) body) (hparams : params ≠ [])
      (hnames : ∀ x ∈ params ++ own.toList, x ≠ S.ident S.ak)
      (hak : env.lookup (S.ident S.ak) = none)
      (hbound : ∀ x ∉ params ++ own.toList, (env.lookup x).isSome = (env'.lookup x).isSome)
      (hvalues : ∀ x v v', x ∉ params ++ own.toList → env.lookup x = some v →
        env'.lookup x = some v' → Twins S j v v') :
      Twins S j (.closure id S.home own params (.lambda [] (codeOf S.ident body)) env)
        (.closure id S.home own params (.lambda [] (codeOf S.ident body)) env')

/-- The values of a name in two environments are twins, or it has none in either. -/
def Paired (S : Setting) (j : Nat) (env env' : Env) (x : String) : Prop :=
  Option.Rel (Twins S j) (env.lookup x) (env'.lookup x)

/-- What trampolines work with in twin runs: twin values, or suspensions whose names have twin
values. -/
inductive TwinWorks (S : Setting) (j : Nat) : Value → Value → Prop
  | value {v v' : Value} (h : Twins S j v v') : TwinWorks S j v v'
  | suspension {I : Idiom S.ident S.ak} {k : String} {t : Tree} {env env' : Env} (id : Nat)
      (hI : S.Admits I) (hk : I.cont k) (ht : Fragment I (.tail k) t)
      (hak : env.lookup (S.ident S.ak) = none) (henv : ∀ x, Paired S j env env' x) :
      TwinWorks S j (.closure id S.home none [] (codeOf S.ident t) env)
        (.closure id S.home none [] (codeOf S.ident t) env')

/-- Calls that code makes in twin runs. -/
inductive TwinCalls (S : Setting) (j : Nat) : Value × List Value → Value × List Value → Prop
  | data {f f' : Value} {args args' : List Value} (hf : Twins S j f f')
      (hargs : List.Forall₂ (Twins S j) args args') : TwinCalls S j (f, args) (f', args')
  | handing {k k' v v' : Value} (hk : Twins S j k k') (hv : Twins S j v v') :
      TwinCalls S j (.helper .applyK, [k, v]) (.helper .applyK, [k', v'])

section Pairs

variable {S : Setting} {j : Nat}

/-- Twin values are alike. -/
theorem Twins.alike {v v' : Value} (h : Twins S j v v') : Alike v v' := by
  induction h with
  | number n => exact .same _
  | flag hi => exact .same _
  | identity => exact .same _
  | entry hr id => exact .same _
  | closure id own hI hk hbody hparams hnames hak hbound _ ih =>
    exact .closure id S.home own _ _ hbound ih

/-- A name is paired if it has values in both environments or in none, and they are twins. -/
theorem paired_iff {env env' : Env} {x : String} :
  Paired S j env env' x ↔ (env.lookup x).isSome = (env'.lookup x).isSome
    ∧ ∀ v v', env.lookup x = some v → env'.lookup x = some v' → Twins S j v v'
  := by
  exact rel_iff_isSome

/-- Functions with the same code are twins if the names that they do not hide are paired. -/
theorem Twins.of_paired
    {I : Idiom S.ident S.ak} {k : String} {body : Tree} {params : List String} {env env' : Env}
    (id : Nat) (own : Option String) (hI : S.Admits I) (hk : I.cont k)
    (hbody : Fragment I (.tail k) body) (hparams : params ≠ [])
    (hnames : ∀ x ∈ params ++ own.toList, x ≠ S.ident S.ak)
    (hak : env.lookup (S.ident S.ak) = none)
    (henv : ∀ x ∉ params ++ own.toList, Paired S j env env' x) :
  Twins S j (.closure id S.home own params (.lambda [] (codeOf S.ident body)) env)
    (.closure id S.home own params (.lambda [] (codeOf S.ident body)) env')
  := by
  apply Twins.closure id own hI hk hbody hparams hnames hak
  · intro x hx
    exact (paired_iff.mp (henv x hx)).1
  · intro x v v' hx
    exact (paired_iff.mp (henv x hx)).2 v v'

/-- A name is paired behind bindings that pair it too, where it is needed. -/
theorem Paired.append {δ δ' env env' : Env} {x : String} (hδ : Paired S j δ δ' x)
    (henv : δ.lookup x = none → Paired S j env env' x) :
  Paired S j (δ ++ env) (δ' ++ env') x
  := by
  unfold Paired at hδ henv ⊢
  rw [List.lookup_append, List.lookup_append]
  cases hlookup : δ.lookup x with
  | none =>
    rw [hlookup] at hδ
    cases hlookup' : δ'.lookup x with
    | none =>
      rw [Option.none_or, Option.none_or]
      exact henv hlookup
    | some v' =>
      rw [hlookup'] at hδ
      contradiction
  | some v =>
    rw [hlookup] at hδ
    cases hlookup' : δ'.lookup x with
    | none =>
      rw [hlookup'] at hδ
      contradiction
    | some v' =>
      rw [hlookup'] at hδ
      rw [Option.some_or, Option.some_or]
      exact hδ

/-- Parameters are paired when the arguments are twins. -/
theorem paired_bindings {args args' : List Value} (hargs : List.Forall₂ (Twins S j) args args')
    (params : List String) (x : String) :
  Paired S j (bindings params args) (bindings params args') x
  := by
  unfold Paired bindings
  induction hargs generalizing params with
  | nil =>
    rw [List.zip_nil_right]
    exact .none
  | cons ha _ ih =>
    cases params with
    | nil => exact .none
    | cons p params =>
      rw [List.zip_cons_cons, List.zip_cons_cons, List.lookup_cons, List.lookup_cons]
      cases x == p with
      | true => exact .some ha
      | false => exact ih params

/-- A name that has no value among the parameters is none of them. -/
theorem notMem_of_lookup_bindings {params : List String} {args : List Value}
    (hlength : params.length = args.length) {x : String}
    (h : (bindings params args).lookup x = none) :
  x ∉ params
  := by
  intro hx
  rw [← List.map_fst_zip (Nat.le_of_eq hlength)] at hx
  obtain ⟨b, hb, rfl⟩ := List.mem_map.mp hx
  have hne := List.lookup_eq_none_iff.mp h b hb
  simp at hne

end Pairs

/-! ### Computations of twin runs -/

/-- Whenever `x` has a value, `x'` has a related one, and makes as many functions. Neither changes
the flags. -/
def Echoes {α : Type} (R : α → α → Prop) (x x' : Run α) : Prop :=
  ∀ st a st', x st = .ok a st' → st'.flags = st.flags
    ∧ ∀ flags, ∃ a', x' ⟨flags, st.made⟩ = .ok a' ⟨flags, st'.made⟩ ∧ R a a'

/-- Sequences echo each other when their parts do. -/
theorem Echoes.bind
    {α β : Type} {R : α → α → Prop} {Q : β → β → Prop} {x x' : Run α} {f f' : α → Run β}
    (hx : Echoes R x x') (hf : ∀ a a', R a a' → Echoes Q (f a) (f' a')) :
  Echoes Q (x >>= f) (x' >>= f')
  := by
  intro st b st' hb
  obtain ⟨a, st₁, ha, hb⟩ := bind_eq_ok.mp hb
  obtain ⟨hst₁, htwin⟩ := hx st a st₁ ha
  constructor
  · obtain ⟨a', -, haa'⟩ := htwin #[]
    obtain ⟨hst', -⟩ := hf a a' haa' st₁ b st' hb
    exact hst'.trans hst₁
  · intro flags
    obtain ⟨a', ha', haa'⟩ := htwin flags
    obtain ⟨-, htwin'⟩ := hf a a' haa' st₁ b st' hb
    rw [bind_of_ok ha']
    exact htwin' flags

/-- Giving back a value echoes giving back a related one. -/
theorem echoes_pure {α : Type} {R : α → α → Prop} {a a' : α} (h : R a a') :
  Echoes R (pure a : Run α) (pure a')
  := by
  intro st b st' hb
  obtain ⟨rfl, rfl⟩ := pure_eq_ok.mp hb
  exact ⟨rfl, fun flags => ⟨a', rfl, h⟩⟩

section Values

variable {S : Setting} {I : Idiom S.ident S.ak} {j : Nat} {env env' : Env}

/-- A step that may fault, and that has a number for its value, echoes itself. -/
theorem echoes_attempt {x : Except Fault Value} (h : ∀ v, x = .ok v → ∃ n, v = .number n) :
  Echoes (Twins S j) (attempt x) (attempt x)
  := by
  intro st v st' hv
  obtain ⟨hx, rfl⟩ := attempt_eq_ok.mp hv
  obtain ⟨n, rfl⟩ := h v hx
  exact ⟨rfl, fun flags => ⟨_, attempt_eq_ok.mpr ⟨hx, rfl⟩, .number n⟩⟩

/-- The names of an idiom have twin values. -/
theorem echoes_lookup (hI : S.Admits I) (henv : ∀ x, Paired S j env env' x) {x : String}
    (hx : I.data x ∨ I.cont x) :
  Echoes (Twins S j) (lookup S.space env (S.ident x)) (lookup S.space env' (S.ident x))
  := by
  intro st v st' hv
  obtain ⟨hfind, rfl⟩ := lookup_eq_ok.mp hv
  refine ⟨rfl, ?_⟩
  intro flags
  suffices h : ∃ v', find env' S.space (S.ident x) = some v' ∧ Twins S j v v' by
    obtain ⟨v', hv', htwins⟩ := h
    exact ⟨v', lookup_eq_ok.mpr ⟨hv', rfl⟩, htwins⟩
  have hpaired := henv (S.ident x)
  rw [find] at hfind ⊢
  unfold Paired at hpaired
  generalize env.lookup (S.ident x) = a at hpaired hfind
  generalize env'.lookup (S.ident x) = a' at hpaired
  cases hpaired with
  | some h =>
    cases hfind
    exact ⟨_, rfl, h⟩
  | none =>
    rw [Option.none_or] at hfind ⊢
    obtain ⟨r, id, hr, rfl⟩ := hI x v hx hfind
    exact ⟨_, hfind, .entry hr id⟩

/-- The helper that hands on values is found in both runs. -/
theorem echoes_helper (hS : S.HandsOn) (henv : ∀ x, Paired S j env env' x)
    (hak : env.lookup (S.ident S.ak) = none) :
  Echoes (fun f f' => f = .helper .applyK ∧ f' = .helper .applyK)
    (lookup S.space env (S.ident S.ak)) (lookup S.space env' (S.ident S.ak))
  := by
  have hak' : env'.lookup (S.ident S.ak) = none := by
    have hpaired := henv (S.ident S.ak)
    rw [Paired, hak] at hpaired
    generalize env'.lookup (S.ident S.ak) = a at hpaired ⊢
    cases hpaired
    rfl
  intro st v st' hv
  obtain ⟨hfind, rfl⟩ := lookup_eq_ok.mp hv
  rw [find_of_none hak, hS.space] at hfind
  cases hfind
  refine ⟨rfl, fun flags => ⟨_, ?_, rfl, rfl⟩⟩
  apply lookup_eq_ok.mpr
  rw [find_of_none hak', hS.space]
  exact ⟨rfl, rfl⟩

/-- New functions with the same suspended body are twins. -/
theorem echoes_lambda
    (call : Value → List Value → Run Value) (hI : S.Admits I)
    (henv : ∀ x, Paired S j env env' x) (hak : env.lookup (S.ident S.ak) = none) {k : String}
    (hk : I.cont k) {body : Tree} (hbody : Fragment I (.tail k) body) {params : List String}
    (hne : params ≠ []) (hparams : ∀ x ∈ params, I.data x ∨ I.cont x) :
  Echoes (Twins S j)
    (execBy BinaryOp.apply call S.home S.space env (codeOf S.ident (.abstraction params body)))
    (execBy BinaryOp.apply call S.home S.space env' (codeOf S.ident (.abstraction params body)))
  := by
  intro st v st' hv
  rw [codeOf, execBy] at hv ⊢
  cases hv
  refine ⟨rfl, fun flags => ⟨_, rfl, ?_⟩⟩
  apply Twins.of_paired _ none hI hk hbody _ _ hak
  · intro x _
    exact henv x
  · rw [ne_eq, List.map_eq_nil_iff]
    exact hne
  · intro x hx
    rw [Option.toList_none, List.append_nil] at hx
    obtain ⟨y, hy, rfl⟩ := List.mem_map.mp hx
    exact I.helper (hparams y hy)

/-- Values and continuations have twins. -/
theorem echoes_fragment
    (call : Value → List Value → Run Value) (hI : S.Admits I)
    (henv : ∀ x, Paired S j env env' x) (hak : env.lookup (S.ident S.ak) = none) {role : Role}
    {t : Tree} (ht : Fragment I role t) (htail : ∀ k, role ≠ .tail k)
    (hcont : ∀ k, role = .cont k → I.cont k) :
  Echoes (Twins S j) (execBy BinaryOp.apply call S.home S.space env (codeOf S.ident t))
    (execBy BinaryOp.apply call S.home S.space env' (codeOf S.ident t))
  := by
  refine of_fragment (P := fun code => Echoes (Twins S j)
    (execBy BinaryOp.apply call S.home S.space env code)
    (execBy BinaryOp.apply call S.home S.space env' code)) ?_ ?_ ?_ ?_ ?_ ?_ ?_ ht htail hcont
  · intro n
    rw [execBy, execBy]
    exact echoes_pure (.number n)
  · intro x hx
    rw [execBy, execBy]
    exact echoes_lookup hI henv hx
  · intro params k body hne hparams hk hbody
    exact echoes_lambda call hI henv hak hk hbody hne hparams
  · intro a ha
    rw [execBy, execBy]
    apply ha.bind
    intro v v' hv
    rw [hv.alike.negate_eq]
    apply echoes_attempt
    intro w hw
    exact exists_number_of_negate hw
  · intro a ha
    rw [execBy, execBy]
    apply ha.bind
    intro v v' hv
    rw [hv.alike.isTrue_eq]
    exact echoes_pure (.number _)
  · intro op a b ha hb
    rw [execBy, execBy]
    apply ha.bind
    intro v v' hv
    apply hb.bind
    intro w w' hw
    rw [hv.alike.apply_eq hw.alike]
    apply echoes_attempt
    intro u hu
    exact exists_number_of_apply hu
  · intro test conseq alt htest hconseq halt
    rw [execBy, execBy]
    apply htest.bind
    intro v v' hv
    rw [hv.alike.isTrue_eq]
    split
    · exact hconseq
    · exact halt

/-- The arguments of a tail have twins. -/
theorem echoes_args
    {args : List Code} (h : ∀ code ∈ args, Echoes (Twins S j)
      (execBy BinaryOp.apply noCall S.home S.space env code)
      (execBy BinaryOp.apply noCall S.home S.space env' code)) :
  Echoes (List.Forall₂ (Twins S j)) (execAllBy BinaryOp.apply noCall S.home S.space env args)
    (execAllBy BinaryOp.apply noCall S.home S.space env' args)
  := by
  induction args with
  | nil =>
    rw [execAllBy, execAllBy]
    exact echoes_pure .nil
  | cons code args ih =>
    rw [execAllBy, execAllBy]
    apply (h code List.mem_cons_self).bind
    intro v v' hv
    apply (ih fun code hcode => h code (List.mem_cons_of_mem _ hcode)).bind
    intro vs vs' hvs
    exact echoes_pure (.cons hv hvs)

/-- A tail aims at twin calls. -/
theorem echoes_aim
    (hS : S.HandsOn) (hI : S.Admits I) (henv : ∀ x, Paired S j env env' x)
    (hak : env.lookup (S.ident S.ak) = none) {k : String} (hk : I.cont k) {t : Tree}
    (ht : Fragment I (.tail k) t) :
  Echoes (TwinCalls S j) (aim BinaryOp.apply S.home S.space env (codeOf S.ident t))
    (aim BinaryOp.apply S.home S.space env' (codeOf S.ident t))
  := by
  have hvalue : ∀ {t}, Fragment I .value t → Echoes (Twins S j)
      (execBy BinaryOp.apply noCall S.home S.space env (codeOf S.ident t))
      (execBy BinaryOp.apply noCall S.home S.space env' (codeOf S.ident t)) := by
    intro t ht
    exact echoes_fragment noCall hI henv hak ht (by simp) (by simp)
  have hcont : ∀ {t}, Fragment I (.cont k) t → Echoes (Twins S j)
      (execBy BinaryOp.apply noCall S.home S.space env (codeOf S.ident t))
      (execBy BinaryOp.apply noCall S.home S.space env' (codeOf S.ident t)) := by
    intro t ht
    apply echoes_fragment noCall hI henv hak ht (by simp)
    intro k' heq
    cases heq
    exact hk
  induction ht using Fragment.tail_induction with
  | handed hcont' hvalue' =>
    rw [codeOf, aim, aim, codeOf, execBy, execBy, codesOf, codesOf, codesOf]
    simp only [execAllBy, bind_assoc, pure_bind]
    apply (echoes_helper hS henv hak).bind
    rintro _ _ ⟨rfl, rfl⟩
    apply (hcont hcont').bind
    intro κ κ' hκ
    apply (hvalue hvalue').bind
    intro v v' hv
    exact echoes_pure (.handing hκ hv)
  | call hrator hrands hcont' =>
    rw [codeOf, aim, aim]
    apply (hvalue hrator).bind
    intro f f' hf
    apply Echoes.bind (echoes_args _)
    · intro args args' hargs
      exact echoes_pure (.data hf hargs)
    · intro code hcode
      rw [codesOf_eq_map] at hcode
      obtain ⟨t, ht, rfl⟩ := List.mem_map.mp hcode
      rcases List.mem_append.mp ht with ht | ht
      · exact hvalue (hrands t ht)
      · cases List.mem_singleton.mp ht
        exact hcont hcont'
  | branch htest _ _ ihconseq ihalt =>
    rw [codeOf, aim, aim]
    apply (hvalue htest).bind
    intro v v' hv
    rw [hv.alike.isTrue_eq]
    split
    · exact ihconseq
    · exact ihalt

end Values

/-! ### Functions of twin runs -/

section Bodies

variable {S : Setting} {j : Nat}

/-- Twin functions that are called on twin arguments give back suspensions that go the same way. -/
theorem twinWorks_body
    {I : Idiom S.ident S.ak} {k : String} {body : Tree} {params : List String} {env env' : Env}
    (own : Option String) (made id : Nat) (hI : S.Admits I) (hk : I.cont k)
    (hbody : Fragment I (.tail k) body) (hparams : params ≠ [])
    (hnames : ∀ x ∈ params ++ own.toList, x ≠ S.ident S.ak)
    (hak : env.lookup (S.ident S.ak) = none)
    (henv : ∀ x ∉ params ++ own.toList, Paired S j env env' x) {args args' : List Value}
    (hargs : List.Forall₂ (Twins S j) args args') (hlength : params.length = args.length) :
  TwinWorks S j
    (.closure made S.home none [] (codeOf S.ident body)
      (bindings params args ++ ((own.map fun x => (x, Value.closure id S.home own params
        (.lambda [] (codeOf S.ident body)) env)).toList ++ env)))
    (.closure made S.home none [] (codeOf S.ident body)
      (bindings params args' ++ ((own.map fun x => (x, Value.closure id S.home own params
        (.lambda [] (codeOf S.ident body)) env')).toList ++ env')))
  := by
  have htwins := Twins.of_paired id own hI hk hbody hparams hnames hak henv
  apply TwinWorks.suspension _ hI hk hbody
  · rw [lookup_called, hak]
    intro hmem
    exact hnames _ hmem rfl
  · intro x
    apply (paired_bindings hargs params x).append
    intro hnone
    have hx := notMem_of_lookup_bindings hlength hnone
    cases own with
    | none =>
      apply henv x
      rw [Option.toList_none, List.append_nil]
      exact hx
    | some y =>
      by_cases hy : x = y
      · subst hy
        unfold Paired
        rw [Option.map_some, Option.toList_some, List.cons_append, List.lookup_cons_self,
          Option.map_some, Option.toList_some, List.cons_append, List.lookup_cons_self]
        exact .some htwins
      · unfold Paired
        rw [Option.map_some, Option.toList_some, List.cons_append, List.lookup_cons,
          beq_false_of_ne hy, Option.map_some, Option.toList_some, List.cons_append,
          List.lookup_cons, beq_false_of_ne hy]
        apply henv x
        rw [Option.toList_some, List.mem_append, List.mem_singleton, not_or]
        exact ⟨hx, hy⟩

/-- The first suspensions of a routine that is called on twin arguments go the same way, whatever
the two continuations are: the inner function does not see them. -/
theorem Setting.Suits.twinWorks
    {r : Routine} {I : Idiom S.ident S.ak} (h : S.Suits r I) {args args' : List Value}
    (hargs : List.Forall₂ (Twins S j) args args') (hlength : r.params.length = args.length)
    (k k' : Value) {i : Nat} (hi : j ≤ i) (made : Nat) :
  TwinWorks S j (S.launched r args k i made) (S.launched r args' k' i made)
  := by
  have hlength' : ∀ {args : List Value} (k : Value), r.params.length = args.length →
      ((r.params ++ [r.k]).map S.ident).length = (args ++ [k]).length := by
    intro args k hlength
    rw [List.length_map, List.length_append, List.length_append, hlength]
    rfl
  refine twinWorks_body (some (S.ident r.own)) (made + 1) made h.admits h.k h.body ?_
    (fun x => h.ne_helper_inner) (h.lookup_innerEnv i) ?_
    (List.rel_append hargs (.cons (.flag hi) .nil)) (hlength' _ hlength)
  · rw [ne_eq, List.map_eq_nil_iff]
    exact List.append_ne_nil_of_right_ne_nil _ (List.cons_ne_nil _ _)
  · intro x hx
    -- the parameters are hidden, so what is left of the bindings is the flag
    have hparams : ∀ {args : List Value} (k : Value),
        (bindings ((r.params ++ [r.k]).map S.ident) (args ++ [k])).lookup x = none := by
      intro args k
      rw [List.lookup_eq_none_iff]
      intro b hb
      rw [bne_iff_ne]
      rintro rfl
      exact hx (List.mem_append_left _ (List.of_mem_zip hb).1)
    unfold Paired Setting.innerEnv
    rw [List.lookup_cons, List.lookup_cons]
    cases x == S.ident r.flag with
    | true => exact .some (.flag hi)
    | false =>
      rw [hparams, hparams]
      exact .none

end Bodies

end Springboard.Machine
