import Springboard.Proofs.Continuations

/-!
# What threaded trees reflect

A threaded tree has a value only if the tree it was made from has one and the continuation, called
on the mirrored value, has the value of the whole. The proof takes the evaluation of the threaded
tree apart: what the continuation is called with is computed with no more fuel than the whole, so
the induction is on the fuel and, for the same fuel, on the tree.
-/

namespace Springboard.Evaluation

open NameSource Tree

/-- A call with more fuel has the value that it has with less. -/
theorem callBy_mono
    {rule : Rule} {m n : Nat} (hmn : m ≤ n) {f : Value} {args : List Value} {s s' : State}
    {v : Value} (h : callBy rule m f args s = .ok v s') :
  callBy rule n f args s = .ok v s'
  := by
  exact (callBy_fuel rule hmn f args).eq_ok h

/-- A tree evaluated with more fuel has the value that it has with less. -/
theorem evalBy_mono
    {rule : Rule} {m n : Nat} (hmn : m ≤ n) {env : Env} {t : Tree} {s s' : State} {v : Value}
    (h : evalBy rule (callBy rule m) env t s = .ok v s') :
  evalBy rule (callBy rule n) env t s = .ok v s'
  := by
  exact (evalBy_fuel rule hmn env t).eq_ok h

/-- A value was handed on by a call of the continuation, with less fuel. -/
theorem evalBy_handed_eq_ok
    {rule : Rule} {fuel : Nat} {env : Env} {ak : String} {k value : Tree} {s s₁ s' : State}
    {id : Nat} {name : String} {κ w : Value}
    (hlocal : env.lookup ak = none)
    (hglobal : s.globals.lookup ak = some (.closure id name ["f", "v"] handing []))
    (hk : evalBy rule (callBy rule fuel) env k s = .ok κ s₁)
    (h : evalBy rule (callBy rule fuel) env (handed ak (some k) value) s = .ok w s') :
  ∃ m v s₂, m < fuel ∧ evalBy rule (callBy rule fuel) env value s₁ = .ok v s₂
    ∧ callBy rule m κ [v] s₂ = .ok w s'
  := by
  have hhanded := h
  rw [handed, evalBy, bind_eq_ok] at h
  obtain ⟨f, s₃, hf, h⟩ := h
  obtain ⟨args, s₄, hargs, h⟩ := bind_eq_ok.mp h
  rw [evalBy, lookup_eq_ok] at hf
  obtain ⟨-, rfl⟩ := hf
  rw [evalAllBy, bind_of_ok hk, bind_eq_ok] at hargs
  obtain ⟨vs, s₅, hvs, -⟩ := hargs
  obtain ⟨v, rfl, hv⟩ := evalAllBy_singleton.mp hvs
  cases fuel with
  | zero => contradiction
  | succ m =>
    rw [evalBy_handed hlocal hglobal hk hv] at hhanded
    exact ⟨m, v, s₅, by omega, hv, hhanded⟩

/-- A call is made when all its parts have values. -/
theorem evalBy_applied_eq_ok
    {rule : Rule} {call : Value → List Value → Eval Value} {env : Env} {k : Tree}
    {parts : List Tree} {s s' : State} {w : Value}
    (h : evalBy rule call env (applied (some k) parts) s = .ok w s') :
  ∃ f args κ s₁ s₂, evalAllBy rule call env parts s = .ok (f :: args) s₁
    ∧ evalBy rule call env k s₁ = .ok κ s₂ ∧ call f (args ++ [κ]) s₂ = .ok w s'
  := by
  cases parts with
  | nil =>
    rw [applied, evalBy.eq_def] at h
    contradiction
  | cons rator rands =>
    rw [applied, Option.toList, evalBy, bind_eq_ok] at h
    obtain ⟨f, s₁, hf, h⟩ := h
    obtain ⟨ws, s₂, hws, h⟩ := bind_eq_ok.mp h
    obtain ⟨args, ks, s₃, rfl, hargs, hks⟩ := evalAllBy_append.mp hws
    obtain ⟨κ, rfl, hk⟩ := evalAllBy_singleton.mp hks
    refine ⟨f, args, κ, s₃, s₂, ?_, hk, h⟩
    rw [evalAllBy, bind_of_ok hf, bind_of_ok hargs]
    rfl

/-- Where the evaluation of a threaded tree has a value, so has that of the source, and the value
of the threaded tree is that of its continuation on the mirrored one. -/
def CarriesBack (V : Vocabulary) (G G' : List (String × Value)) (fuel : Nat) (t : Tree) : Prop :=
  (∀ x ∈ t.names, V.source x) →
    ∀ {r : Renaming} {n : Int} {env env' : Env}, Scope V r n env env' →
      ∀ {k : Tree} {s s' s₁' : State} {w : Value},
        Waits G' env' n (threaded V.ak (some k) (r.tree t) n).2 k → Holds G s → Holds G' s' →
          runs apart env' (threaded V.ak (some k) (r.tree t) n).1 s' fuel = .ok w s₁' →
            ∃ δ κ v' s₂' m, m ≤ fuel ∧ Drawn n (threaded V.ak (some k) (r.tree t) n).2 δ
              ∧ Denotes G' (δ ++ env') k κ ∧ Holds G' s₂'
              ∧ calls apart κ [v'] s₂' m = .ok w s₁'
              ∧ ∃ v s₁, runs apart env t s fuel = .ok v s₁ ∧ Mirrors V v v' ∧ Holds G s₁

/-- If the parts have values in the second environment, so have the trees that they were made from
in the first, from the state `s` on. -/
def Answers (V : Vocabulary) (G G' : List (String × Value)) (fuel : Nat) (env : Env)
    (ts : List Tree) (s : State) (env' : Env) (parts : List Tree) : Prop :=
  ∀ {call' : Value → List Value → Eval Value} {s' s₁' : State} {vs' : List Value},
    Holds G' s' → evalAllBy apart call' env' parts s' = .ok vs' s₁' →
      Holds G' s₁' ∧ ∃ vs s₁, evalAllBy apart (callBy apart fuel) env ts s = .ok vs s₁
        ∧ List.Forall₂ (Mirrors V) vs vs' ∧ Holds G s₁

/-- More fuel leaves the values of the source as they are. -/
theorem Answers.mono
    {V : Vocabulary} {G G' : List (String × Value)} {m n : Nat} {env env' : Env}
    {ts parts : List Tree} {s : State} (h : Answers V G G' m env ts s env' parts) (hmn : m ≤ n) :
  Answers V G G' n env ts s env' parts
  := by
  intro call' s' s₁' vs' hs' hvs'
  obtain ⟨hs₁', vs, s₁, hvs, hmirrors, hs₁⟩ := h hs' hvs'
  have hmore := evalAllBy_approximates (.refl OutOfFuel apart) (callBy_fuel apart hmn) env ts
  exact ⟨hs₁', vs, s₁, hmore.eq_ok hvs, hmirrors, hs₁⟩

/-- Parts have values when the first has the value `v` and the others have values. -/
theorem Answers.cons
    {V : Vocabulary} {G G' : List (String × Value)} {fuel : Nat} {env env' : Env} {t part : Tree}
    {ts parts : List Tree} {s s₁ : State} {v : Value}
    (hv : evalBy apart (callBy apart fuel) env t s = .ok v s₁)
    (hfirst : ∀ (call' : Value → List Value → Eval Value) {s' s₁' : State} {v' : Value},
      Holds G' s' → evalBy apart call' env' part s' = .ok v' s₁' →
        Holds G' s₁' ∧ Mirrors V v v')
    (hrest : Answers V G G' fuel env ts s₁ env' parts) :
  Answers V G G' fuel env (t :: ts) s env' (part :: parts)
  := by
  intro call' s' s₁' vs' hs' hvs'
  rw [evalAllBy, bind_eq_ok] at hvs'
  obtain ⟨v', s₂', hv', hvs'⟩ := hvs'
  obtain ⟨ws', s₃', hws', hpure⟩ := bind_eq_ok.mp hvs'
  obtain ⟨rfl, rfl⟩ := pure_eq_ok.mp hpure
  obtain ⟨hs₂', hmirrors⟩ := hfirst call' hs' hv'
  obtain ⟨hs₃', vs, s₂, hvs, hmirrors', hs₂⟩ := hrest hs₂' hws'
  refine ⟨hs₃', v :: vs, s₂, ?_, .cons hmirrors hmirrors', hs₂⟩
  rw [evalAllBy, bind_of_ok hv, bind_of_ok hvs]
  rfl

/-- Parts of which the first has no value have no values. -/
theorem Answers.of_first
    {V : Vocabulary} {G G' : List (String × Value)} {fuel : Nat} {env env' : Env}
    {part : Tree} {ts parts : List Tree} {s : State}
    (hfirst : ∀ (call' : Value → List Value → Eval Value) {s' s₁' : State} {v' : Value},
      Holds G' s' → evalBy apart call' env' part s' ≠ .ok v' s₁') :
  Answers V G G' fuel env ts s env' (part :: parts)
  := by
  intro call' s' s₁' vs' hs' hvs'
  rw [evalAllBy, bind_eq_ok] at hvs'
  obtain ⟨v', s₂', hv', -⟩ := hvs'
  exact absurd hv' (hfirst call' hs')

section Back

variable {V : Vocabulary} {strict : Prop} {G G' : List (String × Value)}
variable (hG : Globals V strict G G') (hstrict : strict)
include hG hstrict

/-- The value of a trivial tree mirrors one of the tree it was made from. -/
theorem value_back
    {t : Tree} (ht : Surface false t) (htrivial : t.isTrivial) (hnames : ∀ x ∈ t.names, V.source x)
    {r : Renaming} {n m : Int} {env env' : Env} (h : Scope V r n env env') (hm : n ≤ m)
    (call call' : Value → List Value → Eval Value) {s s' s₁' : State} {v' : Value} (hs : Holds G s)
    (hs' : Holds G' s')
    (hv' : evalBy apart call' env' (threaded V.ak none (r.tree t) m).1 s' = .ok v' s₁') :
  Holds G' s₁' ∧ ∃ v s₁, evalBy apart call env t s = .ok v s₁ ∧ Mirrors V v v' ∧ Holds G s₁
  := by
  exact (carried_value hG ht htrivial hnames h hm call call').back hstrict hs hs' hv'

/-- A trivial tree hands its value to the continuation. -/
theorem carriesBack_of_isTrivial
    (fuel : Nat) {t : Tree} (ht : Surface false t) (htrivial : t.isTrivial) :
  CarriesBack V G G' fuel t
  := by
  intro hnames r n env env' h k s s' s₁' w hk hs hs' hw
  have htree := threaded_of_isTrivial V.ak (Renaming.surface_tree ht r)
    ((r.isTrivial_tree t).trans htrivial)
  rw [htree] at hk hw ⊢
  obtain ⟨id, name, hhelper⟩ := hG.helper
  obtain ⟨κ, s₂', hκ, hs₂', hevalk⟩ := hk.eval hs'
  have hglobal : s'.globals.lookup V.ak = some (.closure id name ["f", "v"] handing []) := by
    rw [hs', hhelper]
  obtain ⟨m, v', s₃', hm, hv', hcall⟩ :=
    evalBy_handed_eq_ok h.clear.ak hglobal (hevalk _ _) hw
  obtain ⟨hs₃', hback⟩ := value_back hG hstrict ht htrivial hnames h (le_refl n)
    (callBy apart fuel) _ hs hs₂' hv'
  exact ⟨[], κ, v', s₃', m, by omega, .nil _ _, hκ, hs₃', hcall, hback⟩

/-- Computing the parts that need it leads to the tree behind them, in an environment in which the
parts have values only if the trees they were made from do. -/
theorem parts_back
    {fuel : Nat} {ts : List Tree} (hts : ∀ t ∈ ts, Surface false t)
    (ih : ∀ t ∈ ts, ∀ m ≤ fuel, CarriesBack V G G' m t) (hnames : ∀ x ∈ namesAll ts, V.source x)
    {r : Renaming} {n p : Int} {env env' : Env} (h : Scope V r n env env') (result : Tree)
    (hp : (threadedParts V.ak (r.trees ts) n).2 ≤ p) {s s' s₁' : State} {w : Value}
    (hs : Holds G s) (hs' : Holds G' s')
    (hw : runs apart env' (threadedPending V.ak (r.trees ts)
      (threadedParts V.ak (r.trees ts) n).1.2 result p).1 s' fuel = .ok w s₁') :
  ∃ δ s₂' m, m ≤ fuel ∧ Drawn n (threadedPending V.ak (r.trees ts)
        (threadedParts V.ak (r.trees ts) n).1.2 result p).2 δ
    ∧ Holds G' s₂' ∧ runs apart (δ ++ env') result s₂' m = .ok w s₁'
    ∧ Answers V G G' fuel env ts s (δ ++ env') (threadedParts V.ak (r.trees ts) n).1.1
  := by
  induction ts generalizing n env' s s' fuel with
  | nil =>
    simp only [Renaming.trees, threadedPending] at hw
    refine ⟨[], s', fuel, Nat.le_refl _, .nil _ _, hs', hw, ?_⟩
    rw [Renaming.trees, threadedParts]
    intro call' s' s₁' vs' hs' hvs'
    rw [evalAllBy] at hvs'
    obtain ⟨rfl, rfl⟩ := pure_eq_ok.mp hvs'
    refine ⟨hs', [], s, ?_, .nil, hs⟩
    rw [evalAllBy]
    rfl
  | cons t ts ihts =>
    have htsurface := hts t List.mem_cons_self
    simp only [namesAll, List.mem_append] at hnames
    have htnames : ∀ x ∈ t.names, V.source x := fun x hx => hnames x (.inl hx)
    have htail : ∀ t ∈ ts, Surface false t := fun t ht => hts t (List.mem_cons_of_mem _ ht)
    have ihtail : ∀ t ∈ ts, ∀ m ≤ fuel, CarriesBack V G G' m t :=
      fun t ht => ih t (List.mem_cons_of_mem _ ht)
    have hntail : ∀ x ∈ namesAll ts, V.source x := fun x hx => hnames x (.inr hx)
    rw [Renaming.trees, threadedParts] at hp hw ⊢
    by_cases htrivial : t.isTrivial
    · rw [if_pos ((r.isTrivial_tree t).trans htrivial)] at hp hw ⊢
      rw [threadedPending] at hw ⊢
      have hle := le_threaded V.ak none (r.tree t) n
      have hfirst := fun {δ : Env} {m : Int} (hδ : Drawn n m δ)
        (call' : Value → List Value → Eval Value) {s' s₁' : State} {v' : Value} =>
        @value_back V strict G G' hG hstrict t htsurface htrivial htnames r n n env (δ ++ env')
          (h.extend hδ) (le_refl n) (callBy apart fuel) call' s s' s₁' v' hs
      -- a part without a value is met behind the others, in whatever state those are computed
      cases hv : evalBy apart (callBy apart fuel) env t s with
      | error e s₂ =>
        obtain ⟨δ, s₂', m, hm, hδ, hs₂', hrun, -⟩ :=
          ihts htail ihtail hntail (h.mono hle) hp hs hs' hw
        have hδ' := hδ.mono hle (le_refl _)
        refine ⟨δ, s₂', m, hm, hδ', hs₂', hrun, Answers.of_first ?_⟩
        intro call' s' s₁' v' hs' hv'
        obtain ⟨-, v, s₁, hv₁, -⟩ := hfirst hδ' call' hs' hv'
        rw [hv] at hv₁
        contradiction
      | ok v s₂ =>
        have hstart : Holds G' ⟨G', 0⟩ := rfl
        have hcarried := carried_value hG htsurface htrivial htnames h (le_refl n)
          (callBy apart fuel) (callBy apart fuel)
        obtain ⟨hs₂, -⟩ := hcarried.forth hs hstart hv
        obtain ⟨δ, s₂', m, hm, hδ, hs₂', hrun, hanswers⟩ :=
          ihts htail ihtail hntail (h.mono hle) hp hs₂ hs' hw
        have hδ' := hδ.mono hle (le_refl _)
        refine ⟨δ, s₂', m, hm, hδ', hs₂', hrun, Answers.cons hv ?_ hanswers⟩
        intro call' s' s₁' v' hs' hv'
        obtain ⟨hs₁', v₁, s₁, hv₁, hmirrors, -⟩ := hfirst hδ' call' hs' hv'
        rw [hv] at hv₁
        cases hv₁
        exact ⟨hs₁', hmirrors⟩
    · rw [if_neg (by rwa [r.isTrivial_tree t])] at hp hw ⊢
      rw [threadedPending] at hw ⊢
      dsimp only at hp hw ⊢
      generalize hparts : threadedParts V.ak (r.trees ts) (n + 1) = parts at hp hw ⊢
      generalize hpending : threadedPending V.ak (r.trees ts) parts.1.2 result p = pending
        at hw ⊢
      have hnp : n + 1 ≤ p := by
        have hle := le_threadedParts V.ak (r.trees ts) (n + 1)
        rw [hparts] at hle
        exact hle.trans hp
      have hpp : p ≤ pending.2 := by
        have hle := le_threadedPending V.ak (r.trees ts) parts.1.2 result p
        rw [hpending] at hle
        exact hle
      have hscope := h.mono (by omega : n ≤ pending.2)
      have hwaits := Waits.abstraction G' env' pending.2
        (threaded V.ak (some (.abstraction [nameOf "s" n] pending.1)) (r.tree t) pending.2).2
        (nameOf "s" n) pending.1
      obtain ⟨δ, κ, v', s₂', m, hm, hδ, hκ, hs₂', hcall, v, s₁, hv, hmirrors, hs₁⟩ :=
        ih t List.mem_cons_self fuel (Nat.le_refl fuel) htnames hscope hwaits hs hs' hw
      have hend := le_threaded V.ak (some (.abstraction [nameOf "s" n] pending.1)) (r.tree t)
        pending.2
      have hδ' := (hδ.mono (by omega : n ≤ pending.2) (le_refl _)).cons "s" (le_refl n)
        (by omega) v'
      cases hκ with
      | abstraction id =>
        cases m with
        | zero => contradiction
        | succ m =>
          rw [calls, callBy, if_pos (by rfl)] at hcall
          have hscope' := (h.extend hδ').mono (Int.le_add_one (le_refl n))
          rw [← hparts] at hp
          have ihless : ∀ t ∈ ts, ∀ m' ≤ m, CarriesBack V G G' m' t :=
            fun t ht m' hm' => ihtail t ht m' (by omega)
          rw [← hpending, ← hparts] at hcall
          obtain ⟨δ', s₃', m', hm', hδ'', hs₃', hrun, hanswers⟩ :=
            ihts htail ihless hntail hscope' hp hs₁ hs₂' hcall
          rw [hparts, hpending] at hδ''
          rw [hparts] at hanswers
          refine ⟨δ' ++ ((nameOf "s" n, v') :: δ), s₃', m', by omega, ?_, hs₃', ?_, ?_⟩
          · exact (hδ''.mono (by omega) hend).append hδ'
          · rw [List.append_assoc]
            exact hrun
          · rw [List.append_assoc]
            refine Answers.cons hv ?_ (hanswers.mono (by omega))
            intro call' s' s₁' v'' hs' hv''
            rw [evalBy, lookup_eq_ok, find, hδ''.lookup (spares_nameOf "s" (.inl (by omega))),
              List.cons_append, List.lookup_cons_self, Option.some_or] at hv''
            obtain ⟨hv'', rfl⟩ := hv''
            cases hv''
            exact ⟨hs', hmirrors⟩

/-- An operation has handed on its own value. -/
theorem operation_back
    {fuel : Nat} {op : Operator} {operands : List Tree}
    (hoperands : ∀ t ∈ operands, Surface false t)
    (ih : ∀ t ∈ operands, ∀ m ≤ fuel, CarriesBack V G G' m t) :
  CarriesBack V G G' fuel (.operation op operands)
  := by
  intro hnames r n env env' h k s s' s₁' w hk hs hs' hw
  rw [Renaming.tree, threaded] at hk hw ⊢
  obtain ⟨δ, s₂', m, hm, hδ, hs₂', hrun, hanswers⟩ :=
    parts_back hG hstrict hoperands ih hnames h _ (le_refl _) hs hs' hw
  obtain ⟨κ, s₃', hκ, hs₃', hevalk⟩ := (hk.extend hδ).eval hs₂'
  obtain ⟨id, name, hhelper⟩ := hG.helper
  have hglobal : s₂'.globals.lookup V.ak = some (.closure id name ["f", "v"] handing []) := by
    rw [hs₂', hhelper]
  obtain ⟨m', v', s₄', hm', hv', hcall⟩ :=
    evalBy_handed_eq_ok (h.extend hδ).clear.ak hglobal (hevalk _ _) hrun
  rw [evalBy, bind_eq_ok] at hv'
  obtain ⟨vs', s₅', hvs', hv'⟩ := hv'
  cases hop : op.evaluateBy apart vs' with
  | error e =>
    rw [hop] at hv'
    contradiction
  | ok u' =>
    rw [hop] at hv'
    obtain ⟨rfl, rfl⟩ := pure_eq_ok.mp hv'
    obtain ⟨hs₅', vs, s₁, hvs, hmirrors, hs₁⟩ := hanswers hs₃' hvs'
    obtain ⟨u, hu, hmirrors'⟩ := (MirrorsAt.evaluateBy op hmirrors).back hop
    refine ⟨δ, κ, u', s₅', m', by omega, hδ, hκ, hs₅', hcall, u, s₁, ?_, hmirrors', hs₁⟩
    rw [runs, evalBy, bind_of_ok hvs, hu]
    rfl

omit hG hstrict in
/-- A branch that was given the continuation, in an environment that the test has extended. -/
theorem branch_back
    {fuel l : Nat} {branch : Tree} (ih : CarriesBack V G G' l branch) (hl : l ≤ fuel)
    (hnames : ∀ x ∈ branch.names, V.source x) {r : Renaming} {n p m : Int} {env env' δ : Env}
    (h : Scope V r n env env') {k : Tree} (hk : Waits G' env' n m k) (hp : n ≤ p)
    (hm : (threaded V.ak (some k) (r.tree branch) p).2 ≤ m) (hδ : Drawn n m δ)
    {s s' s₁' : State} {w : Value} (hs : Holds G s) (hs' : Holds G' s')
    (hw : runs apart (δ ++ env') (threaded V.ak (some k) (r.tree branch) p).1 s' l
      = .ok w s₁') :
  ∃ δ' κ v' s₂' l', l' ≤ fuel ∧ Drawn n m δ' ∧ Denotes G' (δ' ++ env') k κ ∧ Holds G' s₂'
    ∧ calls apart κ [v'] s₂' l' = .ok w s₁'
    ∧ ∃ v s₁, runs apart env branch s fuel = .ok v s₁ ∧ Mirrors V v v' ∧ Holds G s₁
  := by
  obtain ⟨δ', κ, v', s₂', l', hl', hδ', hκ, hs₂', hcall, v, s₁, hv, hmirrors, hs₁⟩ :=
    ih hnames ((h.extend hδ).mono hp) ((hk.extend hδ).mono hp hm) hs hs' hw
  rw [← List.append_assoc] at hκ
  exact ⟨δ' ++ δ, κ, v', s₂', l', by omega, (hδ'.mono hp hm).append hδ, hκ, hs₂', hcall, v, s₁,
    evalBy_mono hl hv, hmirrors, hs₁⟩

/-- A conditional went on with one of its branches. -/
theorem conditional_back
    {fuel : Nat} {test conseq alt : Tree} (htest : Surface false test)
    (ihtest : ∀ m ≤ fuel, CarriesBack V G G' m test)
    (ihconseq : ∀ m ≤ fuel, CarriesBack V G G' m conseq)
    (ihalt : ∀ m ≤ fuel, CarriesBack V G G' m alt) :
  CarriesBack V G G' fuel (.conditional .serious test conseq alt)
  := by
  intro hnames r n env env' h k s s' s₁' w hk hs hs' hw
  simp only [names, List.mem_append] at hnames
  have hconseqNames : ∀ x ∈ conseq.names, V.source x := fun x hx => hnames x (.inl (.inr hx))
  have haltNames : ∀ x ∈ alt.names, V.source x := fun x hx => hnames x (.inr hx)
  have htrees : [r.tree test] = r.trees [test] := by rw [Renaming.trees, Renaming.trees]
  rw [Renaming.tree, threaded_conditional, htrees] at hk hw ⊢
  have hle := le_threaded V.ak (some k) (r.tree conseq) n
  have hle' := le_threaded V.ak (some k) (r.tree alt) (threaded V.ak (some k) (r.tree conseq) n).2
  generalize hconseq : threaded V.ak (some k) (r.tree conseq) n = conseq' at hk hw hle hle' ⊢
  generalize halt : threaded V.ak (some k) (r.tree alt) conseq'.2 = alt' at hk hw hle' ⊢
  have hsurface : ∀ t ∈ [test], Surface false t := by simpa using htest
  have ihtests : ∀ t ∈ [test], ∀ m ≤ fuel, CarriesBack V G G' m t := by simpa using ihtest
  have htestNames : ∀ x ∈ namesAll [test], V.source x := by
    intro x hx
    rw [namesAll, namesAll, List.append_nil] at hx
    exact hnames x (.inl (.inl hx))
  have hlength := length_threadedParts V.ak (r.trees [test]) alt'.2
  have hend := (le_threadedParts V.ak (r.trees [test]) alt'.2).trans
    (le_threadedPending V.ak (r.trees [test]) (threadedParts V.ak (r.trees [test]) alt'.2).1.2
      (chosen conseq'.1 alt'.1 (threadedParts V.ak (r.trees [test]) alt'.2).1.1) _)
  obtain ⟨δ, s₂', m, hm, hδ, hs₂', hrun, hanswers⟩ := parts_back hG hstrict hsurface ihtests
    htestNames (h.mono (hle.trans hle')) _ (le_refl _) hs hs' hw
  generalize threadedParts V.ak (r.trees [test]) alt'.2 = parts at *
  obtain ⟨test', hparts⟩ : ∃ test', parts.1.1 = [test'] := List.length_eq_one_iff.mp hlength
  rw [hparts] at hk hδ hrun hanswers hend ⊢
  have hδ' := hδ.mono (hle.trans hle') (le_refl _)
  rw [runs, chosen, evalBy, bind_eq_ok] at hrun
  obtain ⟨decision', s₃', hdecision', hrun⟩ := hrun
  have htests' := evalAllBy_singleton.mpr ⟨decision', rfl, hdecision'⟩
  obtain ⟨hs₃', vs, s₁, hvs, hmirrors, hs₁⟩ := hanswers hs₂' htests'
  obtain ⟨decision, rfl, hdecision⟩ := evalAllBy_singleton.mp hvs
  have hsame : Operand.isTrue decision = Operand.isTrue decision' := by
    cases hmirrors with
    | cons hmirrors => exact (MirrorsAt.correspondence _ V).isTrue hmirrors
  split at hrun
  · rename_i htrue
    rw [← hconseq] at hrun
    obtain ⟨δ', κ, v', s₄', l', hl', hδ'', hκ, hs₄', hcall, v, s₂, hv, hrest⟩ :=
      branch_back (ihconseq m hm) hm hconseqNames h hk (le_refl n) (by rw [hconseq]; omega) hδ'
        hs₁ hs₃' hrun
    refine ⟨δ', κ, v', s₄', l', hl', hδ'', hκ, hs₄', hcall, v, s₂, ?_, hrest⟩
    rw [runs, evalBy, bind_of_ok hdecision, hsame, if_pos htrue]
    exact hv
  · rename_i hfalse
    rw [← halt] at hrun
    obtain ⟨δ', κ, v', s₄', l', hl', hδ'', hκ, hs₄', hcall, v, s₂, hv, hrest⟩ :=
      branch_back (ihalt m hm) hm haltNames h hk hle (by rw [halt]; omega) hδ' hs₁ hs₃' hrun
    refine ⟨δ', κ, v', s₄', l', hl', hδ'', hκ, hs₄', hcall, v, s₂, ?_, hrest⟩
    rw [runs, evalBy, bind_of_ok hdecision, hsame, if_neg hfalse]
    exact hv

omit hG hstrict in
/-- A call with a continuation was one of a function that mirrors a function of the source. -/
theorem call_back
    {fuel : Nat} (ih : ∀ m < fuel, ∀ t, Surface false t → CarriesBack V G G' m t) {f f' : Value}
    (hf : Mirrors V f f') {args args' : List Value}
    (hargs : List.Forall₂ (Mirrors V) args args') {κ : Value} {s s' s₁' : State} {w : Value}
    (hs : Holds G s) (hs' : Holds G' s')
    (hw : callBy apart fuel f' (args' ++ [κ]) s' = .ok w s₁') :
  ∃ v' s₂' m, m ≤ fuel ∧ Holds G' s₂' ∧ calls apart κ [v'] s₂' m = .ok w s₁'
    ∧ ∃ v s₁, callBy apart fuel f args s = .ok v s₁ ∧ Mirrors V v v' ∧ Holds G s₁
  := by
  cases fuel with
  | zero => contradiction
  | succ fuel =>
    cases hf with
    | number n => contradiction
    | @closure id id' name name' params body env env' r n hbody hnames hclear hbound hvalues =>
      have hscope : Scope V r n env env' := ⟨hclear, hbound, hvalues⟩
      rw [callBy] at hw ⊢
      split at hw
      · rename_i hlength'
        have hlength : params.length = args.length := by
          rw [List.length_append, List.length_append, List.length_singleton,
            List.length_singleton] at hlength'
          rw [hargs.length_eq]
          omega
        rw [if_pos hlength]
        have hparams : ∀ x ∈ params, V.source x :=
          fun x hx => hnames x (List.mem_append_left _ hx)
        have hbodyNames : ∀ x ∈ body.names, V.source x :=
          fun x hx => hnames x (List.mem_append_right _ hx)
        have hlookup := find_continuation (hlength.trans hargs.length_eq) (nameOf "k" n) κ env' G'
        obtain ⟨δ, κ', v', s₂', m, hm, hδ, hκ, hs₂', hcall, hback⟩ :=
          ih fuel (by omega) body hbody hbodyNames (hscope.enter hparams hargs hlength κ)
            (.var_nameOf hlookup (by omega) _) hs hs' hw
        refine ⟨v', s₂', m, by omega, hs₂', ?_, hback⟩
        cases hκ with
        | var hκ =>
          rw [hδ.find (spares_nameOf "k" (.inl (by omega))), hlookup] at hκ
          cases hκ
          exact hcall
      · contradiction

/-- An application was a call of what its parts had computed. -/
theorem application_back
    {fuel : Nat} (ihfuel : ∀ m < fuel, ∀ t, Surface false t → CarriesBack V G G' m t)
    {rator : Tree} {rands : List Tree} (hsurface : ∀ t ∈ rator :: rands, Surface false t)
    (ih : ∀ t ∈ rator :: rands, CarriesBack V G G' fuel t) :
  CarriesBack V G G' fuel (.application rator rands)
  := by
  intro hnames r n env env' h k s s' s₁' w hk hs hs' hw
  rw [Renaming.tree, threaded_application, ← Renaming.trees] at hk hw ⊢
  have ihparts : ∀ t ∈ rator :: rands, ∀ m ≤ fuel, CarriesBack V G G' m t := by
    intro t ht m hm
    rcases Nat.lt_or_eq_of_le hm with hm | rfl
    · exact ihfuel m hm t (hsurface t ht)
    · exact ih t ht
  obtain ⟨δ, s₂', m, hm, hδ, hs₂', hrun, hanswers⟩ :=
    parts_back hG hstrict hsurface ihparts hnames h _ (le_refl _) hs hs' hw
  obtain ⟨f', args', κ, s₃', s₄', hparts', hκ, hcall⟩ := evalBy_applied_eq_ok hrun
  obtain ⟨hs₃', vs, s₁, hvs, hmirrors, hs₁⟩ := hanswers hs₂' hparts'
  obtain ⟨κ', s₅', hdenotes, hs₅', hevalk⟩ := (hk.extend hδ).eval hs₃'
  rw [hevalk] at hκ
  cases hκ
  cases hmirrors with
  | @cons f _ args _ hf hargs =>
    obtain ⟨v', s₆', l, hl, hs₆', hcall', v, s₂, hv, hrest⟩ :=
      call_back (fun l hl => ihfuel l (by omega)) hf hargs hs₁ hs₅' hcall
    refine ⟨δ, κ, v', s₆', l, by omega, hδ, hdenotes, hs₆', hcall', v, s₂, ?_, hrest⟩
    rw [evalAllBy, bind_eq_ok] at hvs
    obtain ⟨f₁, s₃, hf₁, hvs⟩ := hvs
    obtain ⟨args₁, s₄, hargs₁, hpure⟩ := bind_eq_ok.mp hvs
    obtain ⟨hcons, rfl⟩ := pure_eq_ok.mp hpure
    cases hcons
    rw [runs, evalBy, bind_of_ok hf₁, bind_of_ok hargs₁]
    exact callBy_mono hm hv

/-- Where the evaluation of a threaded tree has a value, so has that of the source, and the value
of the threaded tree is that of its continuation on the mirrored one. -/
theorem carriesBack (fuel : Nat) {t : Tree} (ht : Surface false t) : CarriesBack V G G' fuel t := by
  induction fuel using Nat.strongRecOn generalizing t with
  | ind fuel ihfuel =>
    have hless : ∀ m < fuel, ∀ t, Surface false t → CarriesBack V G G' m t :=
      fun m hm t ht => ihfuel m hm ht
    have hupTo : ∀ {t}, Surface false t → CarriesBack V G G' fuel t →
        ∀ m ≤ fuel, CarriesBack V G G' m t := by
      intro t ht h m hm
      rcases Nat.lt_or_eq_of_le hm with hm | rfl
      · exact hless m hm t ht
      · exact h
    induction ht with
    | literal value => exact carriesBack_of_isTrivial hG hstrict fuel (.literal value) rfl
    | var x => exact carriesBack_of_isTrivial hG hstrict fuel (.var x) rfl
    | operation _ hoperands ih =>
      exact operation_back hG hstrict hoperands fun t ht => hupTo (hoperands t ht) (ih t ht)
    | trivialConditional htrivial htest hconseq halt _ _ _ =>
      exact carriesBack_of_isTrivial hG hstrict fuel
        (.trivialConditional htrivial htest hconseq halt) rfl
    | seriousConditional htest hconseq halt ihtest ihconseq ihalt =>
      exact conditional_back hG hstrict htest (hupTo htest ihtest) (hupTo hconseq ihconseq)
        (hupTo halt ihalt)
    | abstraction params hbody _ =>
      exact carriesBack_of_isTrivial hG hstrict fuel (.abstraction params hbody) rfl
    | definition name params hnested _ _ => contradiction
    | application hrator hrands ihrator ihrands =>
      apply application_back hG hstrict hless
      · exact List.forall_mem_cons.mpr ⟨hrator, hrands⟩
      · exact List.forall_mem_cons.mpr ⟨ihrator, ihrands⟩

end Back

end Springboard.Evaluation
