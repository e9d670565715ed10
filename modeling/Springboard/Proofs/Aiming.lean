import Springboard.Proofs.Logging
import Springboard.Proofs.Passing
import Springboard.Proofs.Tracking

/-!
# Where tails go

A tail ends in one call, and nothing is called before it. So evaluating a tail, or running its
code, comes in two parts: it is found out which function is called with which arguments, and then
that call is made. On both sides the first part finds related functions and arguments. The last
argument is a continuation, or the call is that of the helper that hands a value to one.
-/

namespace Springboard

open NameSource

/-! ### Values call nothing -/

namespace Evaluation

/-- Trees that call nothing have the same values whatever calls do. -/
theorem evalAllBy_congr
    {rule : Rule} {call call' : Value → List Value → Eval Value} {env : Env} {ts : List Tree}
    (h : ∀ t ∈ ts, evalBy rule call env t = evalBy rule call' env t) :
  evalAllBy rule call env ts = evalAllBy rule call' env ts
  := by
  induction ts with
  | nil => rw [evalAllBy, evalAllBy]
  | cons t ts ih =>
    rw [evalAllBy, evalAllBy, h t List.mem_cons_self, ih fun t ht => h t (List.mem_cons_of_mem _ ht)]

section Tails

variable {ident : String → String} {ak : String} {I : Idiom ident ak} {rule : Rule} {env : Env}
variable (call call' : Value → List Value → Eval Value)

/-- Values and continuations call nothing. -/
theorem evalBy_congr {role : Role} {t : Tree} (ht : Fragment I role t)
    (hrole : ∀ k, role ≠ .tail k) :
  evalBy rule call env t = evalBy rule call' env t
  := by
  induction ht with
  | literal n => rw [evalBy, evalBy]
  | var _ => rw [evalBy, evalBy]
  | operation _ _ ih => rw [evalBy, evalBy, evalAllBy_congr fun t ht => ih t ht hrole]
  | choice _ _ _ ihtest ihconseq ihalt =>
    rw [evalBy, evalBy, ihtest hrole, ihconseq hrole, ihalt hrole]
  | function _ _ _ _ _ => rw [evalBy, evalBy]
  | @handed k _ _ _ _ _ _ => exact absurd rfl (hrole k)
  | @call k _ _ _ _ _ _ _ _ _ => exact absurd rfl (hrole k)
  | @branch k _ _ _ _ _ _ _ _ _ => exact absurd rfl (hrole k)
  | given _ => rw [evalBy, evalBy]
  | waiting _ _ _ => rw [evalBy, evalBy]

/-- Evaluating a tail is making the call that it aims at. -/
theorem evalBy_tail {k : String} {t : Tree} (ht : Fragment I (.tail k) t) :
  evalBy rule call env t = aim rule env t >>= fun target => call target.1 target.2
  := by
  have happlication : ∀ {rator rands}, evalBy rule call env rator = evalBy rule noCall env rator →
      evalAllBy rule call env rands = evalAllBy rule noCall env rands →
        evalBy rule call env (.application rator rands)
          = aim rule env (.application rator rands) >>= fun target => call target.1 target.2 := by
    intro rator rands hrator hrands
    rw [evalBy, aim, hrator, hrands]
    simp only [bind_assoc, pure_bind]
  induction ht using Fragment.tail_induction with
  | handed hcont hvalue =>
    apply happlication
    · rw [evalBy, evalBy]
    · apply evalAllBy_congr
      intro t ht
      rcases List.mem_pair.mp ht with rfl | rfl
      · exact evalBy_congr call noCall hcont (by simp)
      · exact evalBy_congr call noCall hvalue (by simp)
  | call hrator hrands hcont =>
    apply happlication
    · exact evalBy_congr call noCall hrator (by simp)
    · apply evalAllBy_congr
      intro t ht
      rcases List.mem_append.mp ht with ht | ht
      · exact evalBy_congr call noCall (hrands t ht) (by simp)
      · cases List.mem_singleton.mp ht
        exact evalBy_congr call noCall hcont (by simp)
  | branch htest _ _ ihconseq ihalt =>
    rw [evalBy, aim, evalBy_congr call noCall htest (by simp), ihconseq, ihalt]
    simp only [bind_assoc]
    congr 1
    funext decision
    split <;> rfl

end Tails

end Evaluation

namespace Machine

section Tails

variable {ident : String → String} {ak : String} {I : Idiom ident ak} {rule : Rule} {home : Nat}
variable {globals : Namespace} {env : Env}

/-- Expressions that call nothing have the same values whatever calls do. -/
theorem execAllBy_congr
    {call call' : Value → List Value → Run Value} {codes : List Code}
    (h : ∀ code ∈ codes, execBy rule call home globals env code
      = execBy rule call' home globals env code) :
  execAllBy rule call home globals env codes = execAllBy rule call' home globals env codes
  := by
  induction codes with
  | nil => rw [execAllBy, execAllBy]
  | cons code codes ih =>
    rw [execAllBy, execAllBy, h code List.mem_cons_self,
      ih fun code hcode => h code (List.mem_cons_of_mem _ hcode)]

variable (call call' : Value → List Value → Run Value)

/-- The code of values and continuations calls nothing. -/
theorem execBy_congr {role : Role} {t : Tree} (ht : Fragment I role t)
    (hrole : ∀ k, role ≠ .tail k) :
  execBy rule call home globals env (codeOf ident t)
    = execBy rule call' home globals env (codeOf ident t)
  := by
  induction ht with
  | literal n => rw [codeOf, execBy, execBy]
  | var _ => rw [codeOf, execBy, execBy]
  | operation hcount _ ih =>
    refine of_ofOperation (P := fun code => execBy rule call home globals env code
      = execBy rule call' home globals env code) ?_ ?_ ?_ ?_ ?_ (ofOperation_eq hcount)
    · intro n
      rw [execBy, execBy]
    · intro a ha
      rw [execBy, execBy, ha]
    · intro a ha
      rw [execBy, execBy, ha]
    · intro op a b ha hb
      rw [execBy, execBy, ha, hb]
    · intro code hcode
      rw [codesOf_eq_map] at hcode
      obtain ⟨t, ht, rfl⟩ := List.mem_map.mp hcode
      exact ih t ht hrole
  | choice _ _ _ ihtest ihconseq ihalt =>
    rw [codeOf, execBy, execBy, ihtest hrole, ihconseq hrole, ihalt hrole]
  | function _ _ _ _ _ => rw [codeOf, execBy, execBy]
  | @handed k _ _ _ _ _ _ => exact absurd rfl (hrole k)
  | @call k _ _ _ _ _ _ _ _ _ => exact absurd rfl (hrole k)
  | @branch k _ _ _ _ _ _ _ _ _ => exact absurd rfl (hrole k)
  | given _ => rw [codeOf, execBy, execBy]
  | waiting _ _ _ => rw [codeOf, execBy, execBy]

/-- Running the code of a tail is making the call that it aims at. -/
theorem execBy_tail {k : String} {t : Tree} (ht : Fragment I (.tail k) t) :
  execBy rule call home globals env (codeOf ident t)
    = aim rule home globals env (codeOf ident t) >>= fun target => call target.1 target.2
  := by
  have happlication : ∀ {f args}, execBy rule call home globals env f
      = execBy rule noCall home globals env f →
      (∀ code ∈ args, execBy rule call home globals env code
        = execBy rule noCall home globals env code) →
        execBy rule call home globals env (.call f args)
          = aim rule home globals env (.call f args)
            >>= fun target => call target.1 target.2 := by
    intro f args hf hargs
    rw [execBy, aim, hf, execAllBy_congr hargs]
    simp only [bind_assoc, pure_bind]
  induction ht using Fragment.tail_induction with
  | handed hcont hvalue =>
    rw [codeOf, codesOf_eq_map]
    apply happlication
    · rw [codeOf, execBy, execBy]
    · intro code hcode
      obtain ⟨t, ht, rfl⟩ := List.mem_map.mp hcode
      rcases List.mem_pair.mp ht with rfl | rfl
      · exact execBy_congr call noCall hcont (by simp)
      · exact execBy_congr call noCall hvalue (by simp)
  | call hrator hrands hcont =>
    rw [codeOf, codesOf_eq_map]
    apply happlication
    · exact execBy_congr call noCall hrator (by simp)
    · intro code hcode
      obtain ⟨t, ht, rfl⟩ := List.mem_map.mp hcode
      rcases List.mem_append.mp ht with ht | ht
      · exact execBy_congr call noCall (hrands t ht) (by simp)
      · cases List.mem_singleton.mp ht
        exact execBy_congr call noCall hcont (by simp)
  | branch htest _ _ ihconseq ihalt =>
    rw [codeOf, execBy, aim, execBy_congr call noCall htest (by simp), ihconseq, ihalt]
    simp only [bind_assoc]
    congr 1
    funext decision
    split <;> rfl

end Tails

/-! ### Continuations of the machine -/

/-- A continuation of evaluation and the continuation of the machine that stands for it. The list
has the flags of the trampolines that end when the continuation is called, the innermost first;
below all of them the values go to `κ₀`. A suspended continuation has a trampoline to force it. -/
inductive Continues (S : Setting) (κ₀ : Evaluation.Value) (flags : Array Flag) :
    List Nat → Evaluation.Value → Value → Prop
  | root : Continues S κ₀ flags [] κ₀ (.helper .identity)
  | flag {j : Nat} {stack : List Nat} {κ : Evaluation.Value} {κ' : Value}
      (hflag : flags[j]? = some ⟨κ', false⟩) (hstack : ∀ i ∈ stack, i < j)
      (h : Continues S κ₀ flags stack κ κ') : Continues S κ₀ flags (j :: stack) κ (.flag j)
  | closure {I : Idiom S.ident S.ak} {k s : String} {body : Tree} {id id' : Nat}
      {env : Evaluation.Env} {env' : Env} {stack : List Nat} {κ : Evaluation.Value} {κ' : Value}
      (hlive : stack ≠ []) (hk : I.cont k) (hs : I.data s) (hbody : Fragment I (.tail k) body)
      (henv : Matches S I env env') (hκ : env.lookup k = some κ)
      (hκ' : env'.lookup (S.ident k) = some κ') (h : Continues S κ₀ flags stack κ κ') :
      Continues S κ₀ flags stack (.closure id "fn" [s] body env)
        (.closure id' S.home none [S.ident s] (.lambda [] (codeOf S.ident body)) env')

/-- The calls that tails end in, on both sides. -/
inductive Targets (S : Setting) (κ₀ : Evaluation.Value) (flags : Array Flag) (stack : List Nat) :
    Evaluation.Value × List Evaluation.Value → Value × List Value → Prop
  | call {f κ : Evaluation.Value} {f' κ' : Value} {args : List Evaluation.Value}
      {args' : List Value} (hf : Tracks S f f') (hargs : List.Forall₂ (Tracks S) args args')
      (hκ : Continues S κ₀ flags stack κ κ') :
      Targets S κ₀ flags stack (f, args ++ [κ]) (f', args' ++ [κ'])
  | handing {id : Nat} {name : String} {κ v : Evaluation.Value} {κ' v' : Value}
      (hκ : Continues S κ₀ flags stack κ κ') (hv : Tracks S v v') :
      Targets S κ₀ flags stack (.closure id name ["f", "v"] Evaluation.handing [], [κ, v])
        (.helper .applyK, [κ', v'])

/-- The helper that hands on values is known on both sides. -/
structure Setting.HandsOn (S : Setting) : Prop where
  global : ∃ id name, S.globals.lookup S.ak
    = some (.closure id name ["f", "v"] Evaluation.handing [])
  space : S.space.lookup (S.ident S.ak) = some (.helper .applyK)

section Aims

variable {S : Setting} {κ₀ : Evaluation.Value} {flags : Array Flag} {stack : List Nat}
variable {I : Idiom S.ident S.ak} {k : String} {env : Evaluation.Env} {env' : Env}
variable {κ : Evaluation.Value} {κ' : Value}

/-- The environments of a tail and of its code, with the continuation at hand and a trampoline that
forces the code. -/
structure Continued (S : Setting) (κ₀ : Evaluation.Value) (flags : Array Flag) (stack : List Nat)
    (I : Idiom S.ident S.ak) (k : String) (env : Evaluation.Env) (env' : Env) : Prop where
  live : stack ≠ []
  isCont : I.cont k
  names : Matches S I env env'
  cont : ∃ κ κ', env.lookup k = some κ ∧ env'.lookup (S.ident k) = some κ'
    ∧ Continues S κ₀ flags stack κ κ'

/-- A continuation is found alike on both sides. -/
theorem carried_cont
    {role : Role} (hrole : role = .cont k) {t : Tree} (ht : Fragment I role t)
    (h : Continued S κ₀ flags stack I k env env')
    (call : Evaluation.Value → List Evaluation.Value → Evaluation.Eval Evaluation.Value)
    (call' : Value → List Value → Run Value) :
  Carried True (Evaluation.Holds S.globals) (HasFlags flags) (Continues S κ₀ flags stack)
    (Evaluation.evalBy Evaluation.apart call env t)
    (execBy apart call' S.home S.space env' (codeOf S.ident t))
  := by
  obtain ⟨κ, κ', hκ, hκ', hcont⟩ := h.cont
  cases ht with
  | given k' =>
    cases hrole
    rw [Evaluation.evalBy, codeOf, execBy]
    have hfind : ∀ G, Evaluation.find env G k = some κ := by
      intro G
      rw [Evaluation.find, hκ, Option.some_or]
    have hfind' : find env' S.space (S.ident k) = some κ' := by
      rw [find, hκ', Option.some_or]
    constructor
    · intro s st v s' hs hst hv
      obtain ⟨hfound, rfl⟩ := Evaluation.lookup_eq_ok.mp hv
      rw [hfind] at hfound
      cases hfound
      exact ⟨hs, κ', st, lookup_eq_ok.mpr ⟨hfind', rfl⟩, hcont, hst⟩
    · intro s st v' st' _ hs hst hv'
      obtain ⟨hfound, rfl⟩ := lookup_eq_ok.mp hv'
      rw [hfind'] at hfound
      cases hfound
      exact ⟨hst, κ, s, Evaluation.lookup_eq_ok.mpr ⟨hfind _, rfl⟩, hcont, hs⟩
  | waiting hs hbody =>
    cases hrole
    rw [Evaluation.evalBy, codeOf]
    apply carried_closure call'
    intro id id'
    exact .closure h.live h.isCont hs hbody h.names hκ hκ' hcont
  | _ => contradiction

/-- The helper that hands on values is found on both sides. -/
theorem carried_helper (hS : S.HandsOn) (h : Matches S I env env') :
  Carried True (Evaluation.Holds S.globals) (HasFlags flags)
    (fun f f' => (∃ id name, f = .closure id name ["f", "v"] Evaluation.handing [])
      ∧ f' = .helper .applyK)
    (Evaluation.lookup env S.ak) (lookup S.space env' (S.ident S.ak))
  := by
  obtain ⟨id, name, hglobal⟩ := hS.global
  have hfind : Evaluation.find env S.globals S.ak
      = some (.closure id name ["f", "v"] Evaluation.handing []) := by
    rw [Evaluation.find, h.ak, Option.none_or, hglobal]
  have hfind' : find env' S.space (S.ident S.ak) = some (.helper .applyK) := by
    rw [find, h.ak', Option.none_or, hS.space]
  constructor
  · intro s st v s' hs hst hv
    obtain ⟨hfound, rfl⟩ := Evaluation.lookup_eq_ok.mp hv
    rw [hs, hfind] at hfound
    cases hfound
    exact ⟨hs, _, st, lookup_eq_ok.mpr ⟨hfind', rfl⟩, ⟨⟨id, name, rfl⟩, rfl⟩, hst⟩
  · intro s st v' st' _ hs hst hv'
    obtain ⟨hfound, rfl⟩ := lookup_eq_ok.mp hv'
    rw [hfind'] at hfound
    cases hfound
    rw [← hs] at hfind
    exact ⟨hst, _, s, Evaluation.lookup_eq_ok.mpr ⟨hfind, rfl⟩, ⟨⟨id, name, rfl⟩, rfl⟩, hs⟩

/-- Arguments with a continuation at the end are found alike on both sides. -/
theorem carried_args
    {rands : List Tree} {cont : Tree} (hrands : ∀ t ∈ rands, Fragment I .value t)
    (hcont : Fragment I (.cont k) cont) (h : Continued S κ₀ flags stack I k env env') :
  Carried True (Evaluation.Holds S.globals) (HasFlags flags)
    (fun ws ws' => ∃ vs κ vs' κ', ws = vs ++ [κ] ∧ ws' = vs' ++ [κ']
      ∧ List.Forall₂ (Tracks S) vs vs' ∧ Continues S κ₀ flags stack κ κ')
    (Evaluation.evalAllBy Evaluation.apart Evaluation.noCall env (rands ++ [cont]))
    (execAllBy apart noCall S.home S.space env' (codesOf S.ident (rands ++ [cont])))
  := by
  induction rands with
  | nil =>
    rw [List.nil_append, Evaluation.evalAllBy, codesOf, execAllBy]
    apply (carried_cont rfl hcont h _ _).bind
    intro κ κ' hκ
    rw [Evaluation.evalAllBy, codesOf, execAllBy, pure_bind, pure_bind]
    exact .pure ⟨[], κ, [], κ', rfl, rfl, .nil, hκ⟩
  | cons t ts ih =>
    rw [List.cons_append, Evaluation.evalAllBy, codesOf, execAllBy]
    apply (carried_value rfl (hrands t List.mem_cons_self) h.names _ _).bind
    intro v v' hv
    apply (ih fun t ht => hrands t (List.mem_cons_of_mem _ ht)).bind
    rintro ws ws' ⟨vs, κ, vs', κ', rfl, rfl, hvs, hκ⟩
    exact .pure ⟨v :: vs, κ, v' :: vs', κ', rfl, rfl, .cons hv hvs, hκ⟩

/-- A tail and its code aim at related calls. -/
theorem carried_aim
    (hS : S.HandsOn) {t : Tree} (ht : Fragment I (.tail k) t)
    (h : Continued S κ₀ flags stack I k env env') :
  Carried True (Evaluation.Holds S.globals) (HasFlags flags) (Targets S κ₀ flags stack)
    (Evaluation.aim Evaluation.apart env t)
    (aim apart S.home S.space env' (codeOf S.ident t))
  := by
  induction ht using Fragment.tail_induction with
  | handed hcont hvalue =>
    rw [Evaluation.aim, Evaluation.evalBy, codeOf, aim, codeOf, execBy]
    apply (carried_helper hS h.names).bind
    rintro f f' ⟨⟨id, name, rfl⟩, rfl⟩
    rw [Evaluation.evalAllBy, codesOf, execAllBy, bind_assoc, bind_assoc]
    apply (carried_cont rfl hcont h _ _).bind
    intro κ κ' hκ
    rw [Evaluation.evalAllBy, codesOf, execAllBy, bind_assoc, bind_assoc, bind_assoc, bind_assoc]
    apply (carried_value rfl hvalue h.names _ _).bind
    intro v v' hv
    rw [Evaluation.evalAllBy, codesOf, execAllBy]
    simp only [pure_bind]
    exact .pure (.handing hκ hv)
  | call hrator hrands hcont =>
    rw [Evaluation.aim, codeOf, aim]
    apply (carried_value rfl hrator h.names _ _).bind
    intro f f' hf
    apply (carried_args hrands hcont h).bind
    rintro ws ws' ⟨vs, κ, vs', κ', rfl, rfl, hvs, hκ⟩
    exact .pure (.call hf hvs hκ)
  | branch htest _ _ ihconseq ihalt =>
    rw [Evaluation.aim, codeOf, aim]
    apply (carried_value rfl htest h.names _ _).bind
    intro v v' hv
    rw [(Tracks.correspondence S).isTrue hv]
    split
    · exact ihconseq
    · exact ihalt

end Aims

end Machine

end Springboard
