import Springboard.Proofs.Continuations
import Springboard.Proofs.Numbering
import Springboard.Proofs.Passing

/-!
# From the source to threaded trees

Where the evaluation of a tree of the source has a value, its threaded counterpart is a chain of
calls that ends with the call of its continuation on the mirrored value. The chain enters the
counterparts of the functions that evaluation enters, in the same order, and between them nothing
but continuations and the helper that hands on values. Stated for every continuation, this is proved
by induction on the fuel of the evaluation of the source and, for the same fuel, on the tree.
-/

namespace Springboard.Evaluation

open NameSource Tree

/-! ### Where functions are -/

/-- Says where the functions of the source are: the path of the function whose continuation has a
number, and which functions may be converted at which numbers, once functions have been made at some
places. A function that may be converted at a number has the path of that number, and so have those
in its body. -/
structure Survey where
  path : Int → Site → Prop
  allows : List Site → Placing
  mono {sites sites' : List Site} {id : Nat} {body : Tree} {n : Int} :
    sites <+: sites' → allows sites id body n → allows sites' id body n
  enter {sites : List Site} {id : Nat} {body : Tree} {n : Int} : allows sites id body n →
    path n (sites[id]?.getD [])
      ∧ ∀ f ∈ functions (sites[id]?.getD [] ++ [0]) (n + 1) body, path f.1 f.2
  make {sites : List Site} {p : Site} {body : Tree} {n : Int} : path n p →
    (∀ f ∈ functions (p ++ [0]) (n + 1) body, path f.1 f.2) →
      allows (sites ++ [p]) sites.length body n

/-- The survey that knows nothing. -/
def Survey.free : Survey where
  path _ _ := True
  allows _ := .free
  mono _ _ := trivial
  enter _ := ⟨trivial, fun _ _ => trivial⟩
  make _ _ := trivial

/-- The parameters of the functions that a chain of calls enters tell which functions of the source
these are; continuations, with numbers from `start` on, and the helper that hands on values are
none. -/
inductive Reveals (start : Int) (path : Int → Site → Prop) : List (List String) → List Site → Prop
  | nil : Reveals start path [] []
  | helper {entered : List (List String)} {ps : List Site} (h : Reveals start path entered ps) :
      Reveals start path (["f", "v"] :: entered) ps
  | waiting {entered : List (List String)} {ps : List Site} {n : Int} (hn : start ≤ n)
      (h : Reveals start path entered ps) : Reveals start path ([nameOf "s" n] :: entered) ps
  | function {entered : List (List String)} {ps : List Site} {n : Int} {p : Site}
      (params : List String) (hp : path n p) (h : Reveals start path entered ps) :
      Reveals start path ((params ++ [nameOf "k" n]) :: entered) (p :: ps)

/-- What is told by two chains of calls is told by one after the other. -/
theorem Reveals.append {start : Int} {path : Int → Site → Prop} {entered entered' : List (List String)}
    {ps ps' : List Site} (h : Reveals start path entered ps) (h' : Reveals start path entered' ps') :
  Reveals start path (entered ++ entered') (ps ++ ps')
  := by
  induction h with
  | nil => exact h'
  | helper _ ih => exact .helper ih
  | waiting hn _ ih => exact .waiting hn ih
  | function params hp _ ih => exact .function params hp ih

/-- What an evaluation without definitions does to the account: functions are made, and those at the
given paths are entered. -/
structure Grows (a : Account) (ps : List Site) (a' : Account) : Prop where
  globals : a'.globals = a.globals
  sites : a.sites <+: a'.sites
  entered : a'.entered = a.entered ++ ps

namespace Grows

variable {a b c : Account} {ps qs : List Site}

/-- Nothing changes at first. -/
theorem refl (a : Account) : Grows a [] a := by
  exact ⟨rfl, List.prefix_rfl, (List.append_nil _).symm⟩

/-- One evaluation after the other. -/
theorem trans (h : Grows a ps b) (h' : Grows b qs c) : Grows a (ps ++ qs) c := by
  refine ⟨h'.globals.trans h.globals, h.sites.trans h'.sites, ?_⟩
  rw [h'.entered, h.entered, List.append_assoc]

/-- The accounts tell which functions were entered between them. -/
theorem unique (h : Grows a ps b) (h' : Grows a qs b) : ps = qs := by
  exact List.append_cancel_left (h.entered.symm.trans h'.entered)

end Grows

/-! ### Calls of tails -/

section Tails

variable {env : Env} {s s₁ s₂ : State} {κ : Value}

/-- A value that is handed on comes to the call of the continuation. -/
theorem arrives_handed {ak : String} {k value : Tree} {id : Nat} {name : String} {v : Value}
    (hlocal : env.lookup ak = none)
    (hglobal : s.globals.lookup ak = some (.closure id name ["f", "v"] handing []))
    (hk : evalBy apart noCall env k s = .ok κ s₁)
    (hv : evalBy apart noCall env value s₁ = .ok v s₂) :
  Arrives env (handed ak (some k) value) s [["f", "v"]] (κ, [v]) s₂
  := by
  have hak : evalBy apart noCall env (.var ak) s
      = .ok (.closure id name ["f", "v"] handing []) s := by
    rw [evalBy, lookup_eq_ok, find, hlocal, Option.none_or]
    exact ⟨hglobal, rfl⟩
  have hargs : evalAllBy apart noCall env [k, value] s = .ok [κ, v] s₂ := by
    rw [evalAllBy, bind_of_ok hk, bind_of_ok (evalAllBy_singleton.mpr ⟨v, rfl, hv⟩)]
    rfl
  refine ⟨(.closure id name ["f", "v"] handing [], [κ, v]), s₂, ?_, .step rfl ?_ (.refl _ s₂)⟩
  · rw [handed, aim, bind_of_ok hak, bind_of_ok hargs]
    rfl
  · -- the body of the helper calls its first argument on its second
    rfl

/-- A call aims at the first of its parts, on the others and the continuation. -/
theorem aim_applied {k : Tree} {parts : List Tree} {f' : Value} {args : List Value}
    (hparts : evalAllBy apart noCall env parts s = .ok (f' :: args) s₁)
    (hk : evalBy apart noCall env k s₁ = .ok κ s₂) :
  aim apart env (applied (some k) parts) s = .ok (f', args ++ [κ]) s₂
  := by
  cases parts with
  | nil =>
    rw [evalAllBy] at hparts
    obtain ⟨hnil, -⟩ := pure_eq_ok.mp hparts
    contradiction
  | cons rator rands =>
    rw [evalAllBy, bind_eq_ok] at hparts
    obtain ⟨f, s₃, hf, hparts⟩ := hparts
    obtain ⟨args', s₄, hargs, hparts⟩ := bind_eq_ok.mp hparts
    obtain ⟨hcons, rfl⟩ := pure_eq_ok.mp hparts
    cases hcons
    have hall := evalAllBy_append.mpr ⟨_, _, _, rfl, hargs, evalAllBy_singleton.mpr ⟨κ, rfl, hk⟩⟩
    rw [applied, Option.toList, aim, bind_of_ok hf, bind_of_ok hall]
    rfl

/-- A choice goes on as the branch that its test decides for. -/
theorem goesOn_chosen {test conseq alt : Tree} {decision : Value}
    (h : evalAllBy apart noCall env [test] s = .ok [decision] s₁) :
  GoesOn env (chosen conseq alt [test]) s [] env
    (if Operand.isTrue decision then conseq else alt) s₁
  := by
  intro entered target s₂ harrives
  obtain ⟨target₁, s₃, haim, hpasses⟩ := harrives
  obtain ⟨_, hdecision, htest⟩ := evalAllBy_singleton.mp h
  cases hdecision
  refine ⟨target₁, s₃, ?_, hpasses⟩
  rw [chosen, aim, bind_of_ok htest]
  split at haim
  · rename_i htrue
    rw [if_pos htrue, haim]
  · rename_i hfalse
    rw [if_neg hfalse, haim]

end Tails

/-! ### Values -/

/-- In an environment some parts have values that mirror the given ones, and computing them calls
nothing. -/
def ReadyAt (P : Placing) (V : Vocabulary) (G' : List (String × Value)) (rule : Rule) (env : Env)
    (parts : List Tree) (vs : List Value) : Prop :=
  ∀ s', Holds G' s' → ∃ vs' s₁', List.Forall₂ (MirrorsAt P V) vs vs' ∧ Holds G' s₁'
    ∧ ∀ call', evalAllBy rule call' env parts s' = .ok vs' s₁'

section Ready

variable {P : Placing} {V : Vocabulary} {G' : List (String × Value)} {rule : Rule} {env : Env}

/-- No parts are ready at once. -/
theorem ReadyAt.nil : ReadyAt P V G' rule env [] [] := by
  intro s' hs'
  refine ⟨[], s', .nil, hs', ?_⟩
  intro call'
  rw [evalAllBy]
  rfl

/-- Parts are ready when the first and the others are. -/
theorem ReadyAt.cons
    {t : Tree} {ts : List Tree} {v : Value} {vs : List Value}
    (hfirst : ∀ s', Holds G' s' → ∃ v' s₁', MirrorsAt P V v v' ∧ Holds G' s₁'
      ∧ ∀ call', evalBy rule call' env t s' = .ok v' s₁')
    (hrest : ReadyAt P V G' rule env ts vs) :
  ReadyAt P V G' rule env (t :: ts) (v :: vs)
  := by
  intro s' hs'
  obtain ⟨v', s₁', hv, hs₁', heval⟩ := hfirst s' hs'
  obtain ⟨vs', s₂', hvs, hs₂', hevals⟩ := hrest s₁' hs₁'
  refine ⟨v' :: vs', s₂', .cons hv hvs, hs₂', ?_⟩
  intro call'
  rw [evalAllBy, bind_of_ok (heval call'), bind_of_ok (hevals call')]
  rfl

end Ready

/-- A name that is looked up has its value, and the account stays. -/
theorem idly_lookup_eq_ok {env : Env} {x : String} {a a' : Account} {v : Value} :
  idly (lookup env x) a = .ok v a' ↔ find env a.globals x = some v ∧ a = a'
  := by
  constructor
  · intro h
    unfold idly at h
    cases hlookup : lookup env x a.state with
    | ok w s =>
      rw [hlookup] at h
      obtain ⟨hfound, rfl⟩ := lookup_eq_ok.mp hlookup
      cases h
      exact ⟨hfound, rfl⟩
    | error e s =>
      rw [hlookup] at h
      contradiction
  · rintro ⟨hfound, rfl⟩
    rw [idly, lookup_eq_ok.mpr ⟨hfound, rfl⟩]
    rfl

/-- An operation that is made has its result, and the account stays. -/
theorem idly_attempt_eq_ok {x : Except Fault Value} {a a' : Account} {v : Value} :
  idly (attempt x) a = .ok v a' ↔ x = .ok v ∧ a = a'
  := by
  cases x with
  | ok w =>
    rw [Except.ok.injEq]
    exact pure_eq_ok
  | error e =>
    constructor
    · intro h
      contradiction
    · rintro ⟨h, -⟩
      contradiction

/-- The accounts from which the source is evaluated: the global names have the given values, and the
functions that these are made of have been made. -/
structure Stands (G : List (String × Value)) (base : List Site) (a : Account) : Prop where
  globals : a.globals = G
  sites : base <+: a.sites

/-- Evaluation leads from one such account to another. -/
theorem Stands.grow {G : List (String × Value)} {base : List Site} {a a' : Account} {ps : List Site}
    (h : Stands G base a) (hgrows : Grows a ps a') :
  Stands G base a'
  := by
  exact ⟨hgrows.globals.trans h.globals, h.sites.trans hgrows.sites⟩

section Following

variable {F : Survey} {V : Vocabulary} {strict : Prop} {G G' : List (String × Value)}
variable {base : List Site}

/-- A trivial tree of the source calls nothing, and its counterpart has the mirrored value. -/
def FollowsValue (F : Survey) (V : Vocabulary) (G G' : List (String × Value)) (base : List Site)
    (t : Tree) : Prop :=
  t.isTrivial → (∀ x ∈ t.names, V.source x) →
    ∀ {p : Site} {r : Renaming} {n m : Int} {env env' : Env} {a a₁ : Account} {v : Value}
      {call : Value → List Value → Accounting Value},
      (∀ f ∈ functions p m t, F.path f.1 f.2) → ScopeAt (F.allows a.sites) V r n env env' → n ≤ m →
        Stands G base a → evalAt apart call p env t a = .ok v a₁ →
          Grows a [] a₁ ∧ ∀ {s'}, Holds G' s' →
            ∃ v' s₁', MirrorsAt (F.allows a₁.sites) V v v' ∧ Holds G' s₁'
              ∧ evalBy apart noCall env' (threaded V.ak none (r.tree t) m).1 s' = .ok v' s₁'

/-- Trivial operands call nothing, and their counterparts have the mirrored values. -/
theorem values_follow
    {ts : List Tree} (ih : ∀ t ∈ ts, FollowsValue F V G G' base t) (htrivial : allTrivial ts)
    (hnames : ∀ x ∈ namesAll ts, V.source x) {p : Site} {i : Nat} {r : Renaming} {n m q : Int}
    {env env' : Env} {a a₁ : Account} {vs : List Value}
    {call : Value → List Value → Accounting Value}
    (hpath : ∀ f ∈ functionsIn p i m q ts, F.path f.1 f.2)
    (h : ScopeAt (F.allows a.sites) V r n env env') (hm : n ≤ m) (ha : Stands G base a)
    (hvs : evalAllAt apart call p i env ts a = .ok vs a₁) :
  Grows a [] a₁ ∧ ∀ {s'}, Holds G' s' →
    ∃ vs' s₁', List.Forall₂ (MirrorsAt (F.allows a₁.sites) V) vs vs' ∧ Holds G' s₁'
      ∧ evalAllBy apart noCall env' (threadedParts V.ak (r.trees ts) m).1.1 s' = .ok vs' s₁'
  := by
  induction ts generalizing i m a vs with
  | nil =>
    rw [evalAllAt] at hvs
    obtain ⟨rfl, rfl⟩ := pure_eq_ok.mp hvs
    refine ⟨.refl _, ?_⟩
    intro s' hs'
    rw [Renaming.trees, threadedParts, evalAllBy]
    exact ⟨[], s', .nil, hs', rfl⟩
  | cons t ts ihts =>
    rw [allTrivial, Bool.and_eq_true] at htrivial
    simp only [namesAll, List.mem_append] at hnames
    rw [functionsIn, List.forall_mem_append, if_pos htrivial.1, if_pos htrivial.1] at hpath
    rw [evalAllAt, bind_eq_ok] at hvs
    obtain ⟨v, a₂, hv, hrest⟩ := hvs
    obtain ⟨vs, a₃, hvs, hpure⟩ := bind_eq_ok.mp hrest
    obtain ⟨rfl, rfl⟩ := pure_eq_ok.mp hpure
    obtain ⟨hgrows, hfirst⟩ := ih t List.mem_cons_self htrivial.1 (fun x hx => hnames x (.inl hx))
      hpath.1 h hm ha hv
    have hd := draws_nonneg t
    obtain ⟨hgrows', hrest⟩ := ihts (fun t ht => ih t (List.mem_cons_of_mem _ ht)) htrivial.2
      (fun x hx => hnames x (.inr hx)) hpath.2 (h.widen (F.mono hgrows.sites)) (by omega)
      (ha.grow hgrows) hvs
    refine ⟨hgrows.trans hgrows', ?_⟩
    intro s' hs'
    obtain ⟨v', s₁', hmirrors, hs₁', heval⟩ := hfirst hs'
    obtain ⟨vs', s₂', hvs', hs₂', hevals⟩ := hrest hs₁'
    refine ⟨v' :: vs', s₂', .cons (hmirrors.mono (F.mono hgrows'.sites)) hvs', hs₂', ?_⟩
    rw [Renaming.trees, threadedParts, if_pos ((r.isTrivial_tree t).trans htrivial.1), evalAllBy,
      bind_of_ok heval, snd_threaded, bind_of_ok hevals]
    rfl

variable (hG : GlobalsAt (F.allows base) V strict G G')
include hG

/-- Trivial trees call nothing, and their counterparts have the mirrored values. -/
theorem value_follows {t : Tree} (ht : Surface false t) : FollowsValue F V G G' base t := by
  induction ht with
  | literal value =>
    intro _ _ p r n m env env' a a₁ v call _ _ _ _ hv
    rw [evalAt] at hv
    obtain ⟨rfl, rfl⟩ := pure_eq_ok.mp hv
    refine ⟨.refl _, ?_⟩
    intro s' hs'
    rw [Renaming.tree, threaded, handed, evalBy]
    exact ⟨.number value, s', .number value, hs', rfl⟩
  | var x =>
    intro _ hnames p r n m env env' a a₁ v call _ h _ ha hv
    rw [evalAt, idly_lookup_eq_ok, ha.globals] at hv
    obtain ⟨hfound, rfl⟩ := hv
    refine ⟨.refl _, ?_⟩
    intro s' hs'
    have hG := hG.widen (F.mono ha.sites)
    obtain ⟨v', hv', hmirrors⟩ := find_forth hG h (hnames x (List.mem_singleton_self x)) hfound
    rw [Renaming.tree, threaded, handed, evalBy]
    rw [← hs'] at hv'
    exact ⟨v', s', hmirrors, hs', lookup_eq_ok.mpr ⟨hv', rfl⟩⟩
  | @operation op operands _ _ ih =>
    intro htrivial hnames p r n m env env' a a₁ v call hpath h hm ha hv
    have htrivial' : allTrivial (r.trees operands) := (r.allTrivial_trees operands).trans htrivial
    rw [functions] at hpath
    rw [evalAt, bind_eq_ok] at hv
    obtain ⟨vs, a₂, hvs, hv⟩ := hv
    obtain ⟨hop, rfl⟩ := idly_attempt_eq_ok.mp hv
    obtain ⟨hgrows, hvalues⟩ := values_follow ih htrivial hnames hpath h hm ha hvs
    refine ⟨hgrows, ?_⟩
    intro s' hs'
    obtain ⟨vs', s₁', hvs', hs₁', hevals⟩ := hvalues hs'
    obtain ⟨v', hop', hmirrors⟩ := (MirrorsAt.evaluateBy op hvs').forth hop
    refine ⟨v', s₁', hmirrors, hs₁', ?_⟩
    rw [Renaming.tree, threaded, threadedPending_of_allTrivial V.ak htrivial', handed, evalBy,
      bind_of_ok hevals, hop']
    rfl
  | @trivialConditional test conseq alt htrivial _ _ _ ihtest ihconseq ihalt =>
    intro _ hnames p r n m env env' a a₁ v call hpath h hm ha hv
    simp only [names, List.mem_append] at hnames
    rw [functions, List.forall_mem_append, List.forall_mem_append] at hpath
    rw [evalAt, bind_eq_ok] at hv
    obtain ⟨decision, a₂, hdecision, hv⟩ := hv
    obtain ⟨hgrows, htest⟩ := ihtest htrivial.1 (fun x hx => hnames x (.inl (.inl hx))) hpath.1 h hm
      ha hdecision
    have hd := draws_nonneg test
    have hd' := draws_nonneg conseq
    have hscope := h.widen (F.mono hgrows.sites)
    have hbranch : Grows a₂ [] a₁ ∧ ∀ {s'}, Holds G' s' →
        ∃ v' s₁', MirrorsAt (F.allows a₁.sites) V v v' ∧ Holds G' s₁'
          ∧ evalBy apart noCall env' (if Operand.isTrue decision
              then (threaded V.ak none (r.tree conseq) (m + draws test)).1
              else (threaded V.ak none (r.tree alt) (m + draws test + draws conseq)).1) s'
            = .ok v' s₁' := by
      by_cases htrue : Operand.isTrue decision
      · simp only [if_pos htrue] at hv ⊢
        exact ihconseq htrivial.2.1 (fun x hx => hnames x (.inl (.inr hx))) hpath.2.1 hscope
          (by omega) (ha.grow hgrows) hv
      · simp only [if_neg htrue] at hv ⊢
        exact ihalt htrivial.2.2 (fun x hx => hnames x (.inr hx)) hpath.2.2 hscope
          (by omega) (ha.grow hgrows) hv
    obtain ⟨hgrows', hbranch⟩ := hbranch
    refine ⟨hgrows.trans hgrows', ?_⟩
    intro s' hs'
    obtain ⟨decision', s₁', hmirrors, hs₁', heval⟩ := htest hs'
    obtain ⟨v', s₂', hv', hs₂', heval'⟩ := hbranch hs₁'
    refine ⟨v', s₂', hv', hs₂', ?_⟩
    rw [Renaming.tree, threaded, handed, evalBy, bind_of_ok heval,
      ← (MirrorsAt.correspondence _ V).isTrue hmirrors, snd_threaded, snd_threaded, ← heval']
    split <;> rfl
  | seriousConditional _ _ _ _ _ _ =>
    intro htrivial
    contradiction
  | @abstraction params body hbody _ =>
    intro _ hnames p r n m env env' a a₁ v call hpath h hm ha hv
    rw [functions, List.forall_mem_cons] at hpath
    rw [evalAt] at hv
    cases hv
    refine ⟨⟨rfl, List.prefix_append _ _, (List.append_nil _).symm⟩, ?_⟩
    intro s' hs'
    have hscope := (h.mono hm).widen (F.mono (List.prefix_append a.sites [p]))
    rw [Renaming.tree, threaded, handed, evalBy]
    exact ⟨_, { s' with made := s'.made + 1 }, hscope.mirrors_closure hbody hnames a.sites.length
      s'.made "fn" "fn" (F.make hpath.1 hpath.2), hs', makeClosure_eq _ _ _ _ s'⟩
  | definition name params hnested _ _ => contradiction
  | application _ _ _ _ =>
    intro htrivial
    contradiction

/-! ### Trees -/

omit hG in
/-- Where the evaluation of a tree of the source has a value, its threaded counterpart comes to the
call of its continuation on the mirrored value, and enters the counterparts of the same functions. -/
def Follows (F : Survey) (V : Vocabulary) (G G' : List (String × Value)) (base : List Site)
    (fuel : Nat) (t : Tree) : Prop :=
  (∀ x ∈ t.names, V.source x) →
    ∀ {p : Site} {r : Renaming} {n : Int} {env env' : Env} {a a₁ : Account} {v : Value},
      (∀ f ∈ functions p n t, F.path f.1 f.2) → ScopeAt (F.allows a.sites) V r n env env' →
        Stands G base a → evalAt apart (callAt apart fuel) p env t a = .ok v a₁ →
          ∃ ps, Grows a ps a₁ ∧ ∀ {k : Tree} {s' : State},
            Waits G' env' n (n + draws t) k → Holds G' s' →
              ∃ δ κ v' s₁' entered, Drawn n (n + draws t) δ ∧ Denotes G' (δ ++ env') k κ
                ∧ MirrorsAt (F.allows a₁.sites) V v v' ∧ Holds G' s₁' ∧ Reveals V.start F.path entered ps
                ∧ Arrives env' (threaded V.ak (some k) (r.tree t) n).1 s' entered (κ, [v']) s₁'

/-- A trivial tree hands its value to the continuation. -/
theorem follows_of_isTrivial (fuel : Nat) {t : Tree} (ht : Surface false t) (htrivial : t.isTrivial) :
  Follows F V G G' base fuel t
  := by
  intro hnames p r n env env' a a₁ v hpath h ha hv
  have htree := threaded_of_isTrivial V.ak (Renaming.surface_tree ht r)
    ((r.isTrivial_tree t).trans htrivial)
  obtain ⟨hgrows, hvalue⟩ :=
    value_follows hG ht htrivial hnames hpath h (Int.le_refl n) ha hv
  refine ⟨[], hgrows, ?_⟩
  intro k s' hk hs'
  rw [htree]
  obtain ⟨id, name, hhelper⟩ := hG.helper
  obtain ⟨κ, s₂', hκ, hs₂', hevalk⟩ := hk.eval hs'
  obtain ⟨v', s₁', hmirrors, hs₁', heval⟩ := hvalue hs₂'
  refine ⟨[], κ, v', s₁', _, .nil _ _, hκ, hmirrors, hs₁', .helper .nil, ?_⟩
  have hglobal : s'.globals.lookup V.ak = some (.closure id name ["f", "v"] handing []) := by
    rw [hs', hhelper]
  exact arrives_handed h.clear.ak hglobal (hevalk _ _) heval

/-- Computing the parts that need it goes on as the tree behind them, in an environment in which all
parts are ready. -/
theorem parts_follow
    {fuel : Nat} {ts : List Tree} (hts : ∀ t ∈ ts, Surface false t)
    (ih : ∀ t ∈ ts, Follows F V G G' base fuel t) (hnames : ∀ x ∈ namesAll ts, V.source x)
    {p : Site} {i : Nat} {r : Renaming} {n q : Int} {env env' : Env} {a a₁ : Account}
    {vs : List Value} (hpath : ∀ f ∈ functionsIn p i n q ts, F.path f.1 f.2)
    (hq : n + drawsFirst ts ≤ q) (h : ScopeAt (F.allows a.sites) V r n env env')
    (ha : Stands G base a) (hvs : evalAllAt apart (callAt apart fuel) p i env ts a = .ok vs a₁) :
  ∃ ps, Grows a ps a₁ ∧ ∀ (result : Tree) {s' : State}, Holds G' s' →
    ∃ δ s₁' entered, Drawn n (q + drawsLater ts) δ ∧ Holds G' s₁'
      ∧ ReadyAt (F.allows a₁.sites) V G' apart (δ ++ env') (threadedParts V.ak (r.trees ts) n).1.1 vs
      ∧ Reveals V.start F.path entered ps
      ∧ GoesOn env' (threadedPending V.ak (r.trees ts) (threadedParts V.ak (r.trees ts) n).1.2
          result q).1 s' entered (δ ++ env') result s₁'
  := by
  induction ts generalizing i n env' a vs with
  | nil =>
    rw [evalAllAt] at hvs
    obtain ⟨rfl, rfl⟩ := pure_eq_ok.mp hvs
    refine ⟨[], .refl _, ?_⟩
    intro result s' hs'
    refine ⟨[], s', [], .nil _ _, hs', ?_, .nil, ?_⟩
    · rw [Renaming.trees, threadedParts]
      exact .nil
    · simp only [Renaming.trees, threadedPending]
      exact fun harrives => harrives
  | cons t ts ihts =>
    have htsurface := hts t List.mem_cons_self
    simp only [namesAll, List.mem_append] at hnames
    have htnames : ∀ x ∈ t.names, V.source x := fun x hx => hnames x (.inl hx)
    have htail : ∀ t ∈ ts, Surface false t := fun t ht => hts t (List.mem_cons_of_mem _ ht)
    have ihtail : ∀ t ∈ ts, Follows F V G G' base fuel t :=
      fun t ht => ih t (List.mem_cons_of_mem _ ht)
    have hntail : ∀ x ∈ namesAll ts, V.source x := fun x hx => hnames x (.inr hx)
    rw [functionsIn, List.forall_mem_append] at hpath
    rw [drawsFirst] at hq
    rw [evalAllAt, bind_eq_ok] at hvs
    obtain ⟨v, a₂, hv, hrest⟩ := hvs
    obtain ⟨vs, a₃, hvs, hpure⟩ := bind_eq_ok.mp hrest
    obtain ⟨rfl, rfl⟩ := pure_eq_ok.mp hpure
    have hd := draws_nonneg t
    obtain ⟨hfirst, hlater⟩ := drawsIn_nonneg ts
    rw [Renaming.trees, threadedParts, r.isTrivial_tree, drawsLater]
    by_cases htrivial : t.isTrivial
    · -- a trivial part is computed behind the others, in their environment
      rw [if_pos htrivial] at hq
      rw [if_pos htrivial, if_pos htrivial] at hpath
      rw [if_pos htrivial, if_pos htrivial, Int.zero_add]
      simp only [snd_threaded]
      obtain ⟨hgrows, -⟩ := value_follows hG htsurface htrivial htnames hpath.1 h (Int.le_refl n)
        ha hv
      obtain ⟨ps, hgrows', hrest⟩ := ihts htail ihtail hntail hpath.2 (by omega)
        ((h.widen (F.mono hgrows.sites)).mono (by omega)) (ha.grow hgrows) hvs
      refine ⟨ps, hgrows.trans hgrows', ?_⟩
      intro result s' hs'
      obtain ⟨δ, s₁', entered, hδ, hs₁', hready, hreveals, hgoes⟩ := hrest result hs'
      rw [threadedPending]
      have hδ' := hδ.mono (by omega : n ≤ n + draws t) (Int.le_refl _)
      refine ⟨δ, s₁', entered, hδ', hs₁', .cons ?_ hready, hreveals, hgoes⟩
      intro s₂' hs₂'
      obtain ⟨-, hvalue⟩ := value_follows hG htsurface htrivial htnames hpath.1 (h.extend hδ')
        (Int.le_refl n) ha hv
      obtain ⟨v', s₃', hmirrors, hs₃', heval⟩ := hvalue hs₂'
      exact ⟨v', s₃', hmirrors.mono (F.mono hgrows'.sites), hs₃',
        evalBy_of_noCall (fun _ _ _ _ h => h) heval⟩
    · -- a serious part is computed first, and its value bound to its name
      rw [if_neg htrivial] at hq
      rw [if_neg htrivial, if_neg htrivial] at hpath
      rw [if_neg htrivial, if_neg htrivial]
      have hscope := h.mono (by omega : n ≤ q + drawsLater ts)
      obtain ⟨ps, hgrows, hfollows⟩ := ih t List.mem_cons_self htnames hpath.1 hscope ha hv
      have hwide := h.widen (F.mono hgrows.sites)
      have hnext : n ≤ n + 1 := by omega
      obtain ⟨ps', hgrows', -⟩ := ihts htail ihtail hntail hpath.2 (by omega) (hwide.mono hnext)
        (ha.grow hgrows) hvs
      refine ⟨ps ++ ps', hgrows.trans hgrows', ?_⟩
      intro result s' hs'
      rw [threadedPending, snd_threadedPending]
      generalize hpending : (threadedPending V.ak (r.trees ts)
        (threadedParts V.ak (r.trees ts) (n + 1)).1.2 result q).1 = pending
      obtain ⟨δ, κ, v', s₁', entered, hδ, hκ, hmirrors, hs₁', hreveals, harrives⟩ :=
        hfollows (.abstraction G' env' _ _ (nameOf "s" n) pending) hs'
      have hδ' := (hδ.mono (by omega : n ≤ _) (Int.le_refl _)).cons "s" (Int.le_refl n) (by omega) v'
      obtain ⟨ps'', hgrows'', hrest⟩ := ihts htail ihtail hntail hpath.2 (by omega)
        ((hwide.extend hδ').mono hnext) (ha.grow hgrows) hvs
      cases hgrows'.unique hgrows''
      obtain ⟨δ', s₂', entered', hδ'', hs₂', hready, hreveals', hgoes⟩ := hrest result hs₁'
      rw [hpending] at hgoes
      refine ⟨δ' ++ ((nameOf "s" n, v') :: δ), s₂', entered ++ [nameOf "s" n] :: entered', ?_, hs₂',
        ?_, hreveals.append (.waiting h.clear.start_le hreveals'), ?_⟩
      · exact (hδ''.mono hnext (by omega)).append (hδ'.mono (Int.le_refl n) (by omega))
      · rw [List.append_assoc]
        refine .cons ?_ hready
        intro s₃' hs₃'
        refine ⟨v', s₃', hmirrors.mono (F.mono hgrows'.sites), hs₃', ?_⟩
        intro call'
        rw [evalBy, lookup_eq_ok, find, hδ''.lookup (spares_nameOf "s" (.inl (by omega)))]
        exact ⟨by rw [List.cons_append, List.lookup_cons_self, Option.some_or], rfl⟩
      · rw [List.append_assoc]
        intro entered'' target s'' harrives'
        cases hκ with
        | abstraction id =>
          rw [List.append_assoc, List.cons_append]
          exact harrives.trans (.of_arrives (by rfl) (hgoes harrives'))

/-- An operation computes its operands, then hands on its own value. -/
theorem operation_follows
    {fuel : Nat} {op : Operator} {operands : List Tree}
    (hoperands : ∀ t ∈ operands, Surface false t)
    (ih : ∀ t ∈ operands, Follows F V G G' base fuel t) :
  Follows F V G G' base fuel (.operation op operands)
  := by
  intro hnames p r n env env' a a₁ v hpath h ha hv
  rw [functions] at hpath
  rw [evalAt, bind_eq_ok] at hv
  obtain ⟨vs, a₂, hvs, hv⟩ := hv
  obtain ⟨hop, rfl⟩ := idly_attempt_eq_ok.mp hv
  obtain ⟨ps, hgrows, hparts⟩ :=
    parts_follow hG hoperands ih hnames hpath (Int.le_refl _) h ha hvs
  refine ⟨ps, hgrows, ?_⟩
  intro k s' hk hs'
  rw [draws, ← Int.add_assoc] at hk ⊢
  rw [Renaming.tree, threaded, snd_threadedParts]
  obtain ⟨δ, s₁', entered, hδ, hs₁', hready, hreveals, hgoes⟩ := hparts (handed V.ak (some k)
    (operation op (threadedParts V.ak (r.trees operands) n).1.1)) hs'
  obtain ⟨κ, s₂', hκ, hs₂', hevalk⟩ := (hk.extend hδ).eval hs₁'
  obtain ⟨vs', s₃', hvs', hs₃', hevals⟩ := hready s₂' hs₂'
  obtain ⟨v', hop', hmirrors⟩ := (MirrorsAt.evaluateBy op hvs').forth hop
  obtain ⟨id, name, hhelper⟩ := hG.helper
  have hglobal : s₁'.globals.lookup V.ak = some (.closure id name ["f", "v"] handing []) := by
    rw [hs₁', hhelper]
  have heval : evalBy apart noCall (δ ++ env')
      (.operation op (threadedParts V.ak (r.trees operands) n).1.1) s₂' = .ok v' s₃' := by
    rw [evalBy, bind_of_ok (hevals _), hop']
    rfl
  have harrives := hgoes (arrives_handed (h.extend hδ).clear.ak hglobal (hevalk _ _) heval)
  have hreveals := hreveals.append (.helper .nil)
  rw [List.append_nil] at hreveals
  exact ⟨δ, κ, v', s₃', _, hδ, hκ, hmirrors, hs₃', hreveals, harrives⟩

omit hG in
/-- A branch that is given the continuation, in an environment that the test has extended. -/
theorem branch_follows
    {fuel : Nat} {branch : Tree} (ih : Follows F V G G' base fuel branch)
    (hnames : ∀ x ∈ branch.names, V.source x) {p : Site} {r : Renaming} {n m finish : Int}
    {env env' : Env} {a a₁ : Account} {v : Value} (hpath : ∀ f ∈ functions p m branch, F.path f.1 f.2)
    (h : ScopeAt (F.allows a.sites) V r n env env') (ha : Stands G base a)
    (hv : evalAt apart (callAt apart fuel) p env branch a = .ok v a₁) (hm : n ≤ m)
    (hfinish : m + draws branch ≤ finish) :
  ∃ ps, Grows a ps a₁ ∧ ∀ {k : Tree} {δ : Env} {s' : State}, Waits G' env' n finish k →
    Drawn n finish δ → Holds G' s' →
      ∃ δ' κ v' s₁' entered, Drawn n finish δ' ∧ Denotes G' (δ' ++ env') k κ
        ∧ MirrorsAt (F.allows a₁.sites) V v v' ∧ Holds G' s₁' ∧ Reveals V.start F.path entered ps
        ∧ Arrives (δ ++ env') (threaded V.ak (some k) (r.tree branch) m).1 s' entered (κ, [v']) s₁'
  := by
  obtain ⟨ps, hgrows, -⟩ := ih hnames hpath (h.mono hm) ha hv
  refine ⟨ps, hgrows, ?_⟩
  intro k δ s' hk hδ hs'
  obtain ⟨ps', hgrows', hfollows⟩ := ih hnames hpath ((h.extend hδ).mono hm) ha hv
  cases hgrows.unique hgrows'
  obtain ⟨δ', κ, v', s₁', entered, hδ', hκ, hmirrors, hs₁', hreveals, harrives⟩ :=
    hfollows ((hk.extend hδ).mono hm hfinish) hs'
  rw [← List.append_assoc] at hκ
  exact ⟨δ' ++ δ, κ, v', s₁', entered, (hδ'.mono hm hfinish).append hδ, hκ, hmirrors, hs₁', hreveals,
    harrives⟩

/-- A conditional computes its test, then goes on with one of its branches. -/
theorem conditional_follows
    {fuel : Nat} {test conseq alt : Tree} (htest : Surface false test)
    (ihtest : Follows F V G G' base fuel test) (ihconseq : Follows F V G G' base fuel conseq)
    (ihalt : Follows F V G G' base fuel alt) :
  Follows F V G G' base fuel (.conditional .serious test conseq alt)
  := by
  intro hnames p r n env env' a a₁ v hpath h ha hv
  simp only [names, List.mem_append] at hnames
  rw [functions_conditional, List.forall_mem_append, List.forall_mem_append] at hpath
  rw [evalAt, bind_eq_ok] at hv
  obtain ⟨decision, a₂, hdecision, hv⟩ := hv
  have hd := draws_nonneg conseq
  have hd' := draws_nonneg alt
  obtain ⟨hfirst, hlater⟩ := drawsIn_nonneg [test]
  -- the test is the only part, and stands behind the branches in the order of numbers
  have htests : evalAllAt apart (callAt apart fuel) p 0 env [test] a = .ok [decision] a₂ := by
    rw [evalAllAt, bind_of_ok hdecision, evalAllAt, bind_of_ok (pure_eq _ _)]
    rfl
  have hsurface : ∀ t ∈ [test], Surface false t := by simpa using htest
  have ihtests : ∀ t ∈ [test], Follows F V G G' base fuel t := by simpa using ihtest
  have htestNames : ∀ x ∈ namesAll [test], V.source x := by
    intro x hx
    rw [namesAll, namesAll, List.append_nil] at hx
    exact hnames x (.inl (.inl hx))
  obtain ⟨ps, hgrows, hparts⟩ := parts_follow hG hsurface ihtests htestNames hpath.2.2
    (Int.le_refl _) (h.mono (by omega)) ha htests
  have hwide := h.widen (F.mono hgrows.sites)
  have hbranch : ∃ ps', Grows a₂ ps' a₁ ∧ ∀ {k : Tree} {δ : Env} {s' : State},
      Waits G' env' n (n + draws (.conditional .serious test conseq alt)) k →
        Drawn n (n + draws (.conditional .serious test conseq alt)) δ → Holds G' s' →
          ∃ δ' κ v' s₁' entered, Drawn n (n + draws (.conditional .serious test conseq alt)) δ'
            ∧ Denotes G' (δ' ++ env') k κ ∧ MirrorsAt (F.allows a₁.sites) V v v' ∧ Holds G' s₁'
            ∧ Reveals V.start F.path entered ps'
            ∧ Arrives (δ ++ env') (if Operand.isTrue decision
                then (threaded V.ak (some k) (r.tree conseq) n).1
                else (threaded V.ak (some k) (r.tree alt) (n + draws conseq)).1) s' entered
                (κ, [v']) s₁' := by
    rw [draws_conditional]
    by_cases htrue : Operand.isTrue decision
    · simp only [if_pos htrue] at hv ⊢
      exact branch_follows ihconseq (fun x hx => hnames x (.inl (.inr hx))) hpath.1 hwide
        (ha.grow hgrows) hv (Int.le_refl n) (by omega)
    · simp only [if_neg htrue] at hv ⊢
      exact branch_follows ihalt (fun x hx => hnames x (.inr hx)) hpath.2.1 hwide
        (ha.grow hgrows) hv (by omega) (by omega)
  obtain ⟨ps', hgrows', hbranch⟩ := hbranch
  refine ⟨ps ++ ps', hgrows.trans hgrows', ?_⟩
  intro k s' hk hs'
  have htrees : [r.tree test] = r.trees [test] := by rw [Renaming.trees, Renaming.trees]
  rw [Renaming.tree, threaded_conditional, htrees, snd_threaded, snd_threaded, snd_threadedParts]
  have hlength := length_threadedParts V.ak (r.trees [test]) (n + draws conseq + draws alt)
  obtain ⟨test', htest'⟩ : ∃ test', (threadedParts V.ak (r.trees [test])
      (n + draws conseq + draws alt)).1.1 = [test'] := List.length_eq_one_iff.mp hlength
  rw [htest'] at hparts ⊢
  obtain ⟨δ, s₁', entered, hδ, hs₁', hready, hreveals, hgoes⟩ := hparts (chosen
    (threaded V.ak (some k) (r.tree conseq) n).1
    (threaded V.ak (some k) (r.tree alt) (n + draws conseq)).1 [test']) hs'
  obtain ⟨decisions, s₂', hdecisions, hs₂', hevals⟩ := hready s₁' hs₁'
  cases hdecisions with
  | cons hmirrors hnil =>
    cases hnil
    have hend : n + draws conseq + draws alt + drawsFirst [test] + drawsLater [test]
        = n + draws (.conditional .serious test conseq alt) := by
      rw [draws_conditional]
      omega
    rw [hend] at hδ
    obtain ⟨δ', κ, v', s₃', entered', hδ', hκ, hv', hs₃', hreveals', harrives⟩ :=
      hbranch hk (hδ.mono (by omega) (Int.le_refl _)) hs₂'
    rw [(MirrorsAt.correspondence _ V).isTrue hmirrors] at harrives
    exact ⟨δ', κ, v', s₃', _, hδ', hκ, hv', hs₃', hreveals.append hreveals',
      hgoes (goesOn_chosen (hevals _) harrives)⟩

omit hG in
/-- A call of a function comes to the call of the continuation that the counterpart was given. -/
theorem call_follows
    {fuel : Nat} (ih : ∀ t, Surface false t → Follows F V G G' base fuel t) {f f' : Value}
    {a a₁ : Account} (hf : MirrorsAt (F.allows a.sites) V f f') {args args' : List Value}
    (hargs : List.Forall₂ (MirrorsAt (F.allows a.sites) V) args args') {v : Value}
    (ha : Stands G base a) (hv : callAt apart (fuel + 1) f args a = .ok v a₁) :
  ∃ ps, Grows a ps a₁ ∧ ∀ (κ : Value) {s' : State}, Holds G' s' →
    ∃ v' s₁' entered, MirrorsAt (F.allows a₁.sites) V v v' ∧ Holds G' s₁'
      ∧ Reveals V.start F.path entered ps ∧ Passes (f', args' ++ [κ]) s' entered (κ, [v']) s₁'
  := by
  cases hf with
  | number n => contradiction
  | @closure id id' name name' params body env env' r n hbody hnames hclear hbound hvalues hplace =>
    have hscope : ScopeAt (F.allows a.sites) V r n env env' := ⟨hclear, hbound, hvalues⟩
    rw [callAt] at hv
    split at hv
    · rename_i hlength
      have hparams : ∀ x ∈ params, V.source x := fun x hx => hnames x (List.mem_append_left _ hx)
      have hbodyNames : ∀ x ∈ body.names, V.source x :=
        fun x hx => hnames x (List.mem_append_right _ hx)
      have henter := hscope.enter hparams hargs hlength
      obtain ⟨hpath, hpaths⟩ := F.enter hplace
      generalize hp : a.sites[id]?.getD [] = p at hpath hpaths
      obtain ⟨b, hentered, hsites, hstart⟩ :
          ∃ b, enterAt id a = .ok p b ∧ b.sites = a.sites ∧ Grows a [p] b := by
        refine ⟨{ a with entered := a.entered ++ [p] }, ?_, rfl, rfl, List.prefix_rfl, rfl⟩
        rw [← hp]
        rfl
      rw [bind_of_ok hentered] at hv
      rw [← hsites] at henter
      have hbodyFollows := fun κ => ih body hbody hbodyNames hpaths (henter κ) (ha.grow hstart) hv
      obtain ⟨ps, hgrows, -⟩ := hbodyFollows (.number (.bool true))
      refine ⟨[p] ++ ps, hstart.trans hgrows, ?_⟩
      intro κ s' hs'
      obtain ⟨ps', hgrows', hfollows⟩ := hbodyFollows κ
      cases hgrows.unique hgrows'
      have hlength' : params.length = args'.length := hlength.trans hargs.length_eq
      -- the continuation is the last parameter, and no name that is drawn in the body
      have hlookup := find_continuation hlength' (nameOf "k" n) κ env' G'
      obtain ⟨δ, κ', v', s₁', entered, hδ, hκ, hmirrors, hs₁', hreveals, harrives⟩ :=
        hfollows (.var_nameOf hlookup (by omega) _) hs'
      refine ⟨v', s₁', _, hmirrors, hs₁', .function params hpath hreveals, ?_⟩
      cases hκ with
      | var hκ =>
        rw [hδ.find (spares_nameOf "k" (.inl (by omega))), hlookup] at hκ
        cases hκ
        have hcall : (params ++ [nameOf "k" n]).length = (args' ++ [κ]).length := by
          rw [List.length_append, List.length_append, hlength']
          rfl
        exact .of_arrives hcall harrives
    · contradiction

/-- An application computes its function and its arguments, then calls. -/
theorem application_follows
    {fuel : Nat} (ihfuel : ∀ m < fuel, ∀ t, Surface false t → Follows F V G G' base m t)
    {rator : Tree} {rands : List Tree} (hsurface : ∀ t ∈ rator :: rands, Surface false t)
    (ih : ∀ t ∈ rator :: rands, Follows F V G G' base fuel t) :
  Follows F V G G' base fuel (.application rator rands)
  := by
  intro hnames p r n env env' a a₁ v hpath h ha hv
  rw [functions_application] at hpath
  rw [evalAt, bind_eq_ok] at hv
  obtain ⟨f, a₂, hf, hv⟩ := hv
  obtain ⟨args, a₃, hargs, hv⟩ := bind_eq_ok.mp hv
  have hall : evalAllAt apart (callAt apart fuel) p 0 env (rator :: rands) a
      = .ok (f :: args) a₃ := by
    rw [evalAllAt, bind_of_ok hf, bind_of_ok hargs]
    rfl
  obtain ⟨ps, hgrows, hparts⟩ :=
    parts_follow hG hsurface ih hnames hpath (Int.le_refl _) h ha hall
  obtain ⟨fuel, rfl⟩ : ∃ m, fuel = m + 1 := by
    cases fuel with
    | zero => contradiction
    | succ m => exact ⟨m, rfl⟩
  have ihcall := ihfuel fuel (by omega)
  have hcalls : ∀ {f' args'}, MirrorsAt (F.allows a₃.sites) V f f' →
      List.Forall₂ (MirrorsAt (F.allows a₃.sites) V) args args' → _ :=
    fun hf' hargs' => call_follows ihcall hf' hargs' (ha.grow hgrows) hv
  obtain ⟨ps', hgrows'⟩ : ∃ ps', Grows a₃ ps' a₁ := by
    obtain ⟨δ, s₁', entered, -, hs₁', hready, -, -⟩ := hparts blank (rfl : Holds G' ⟨G', 0⟩)
    obtain ⟨vs', s₂', hvs', -, -⟩ := hready s₁' hs₁'
    cases hvs' with
    | cons hf' hargs' =>
      obtain ⟨ps', hgrows', -⟩ := hcalls hf' hargs'
      exact ⟨ps', hgrows'⟩
  refine ⟨ps ++ ps', hgrows.trans hgrows', ?_⟩
  intro k s' hk hs'
  rw [draws_application, ← Int.add_assoc] at hk ⊢
  rw [Renaming.tree, threaded_application, ← Renaming.trees, snd_threadedParts]
  obtain ⟨δ, s₁', entered, hδ, hs₁', hready, hreveals, hgoes⟩ :=
    hparts (applied (some k) (threadedParts V.ak (r.trees (rator :: rands)) n).1.1) hs'
  obtain ⟨vs', s₂', hvs', hs₂', hevals⟩ := hready s₁' hs₁'
  obtain ⟨κ, s₃', hκ, hs₃', hevalk⟩ := (hk.extend hδ).eval hs₂'
  cases hvs' with
  | @cons _ f' _ args' hf' hargs' =>
    obtain ⟨ps'', hgrows'', hcall⟩ := hcalls hf' hargs'
    cases hgrows'.unique hgrows''
    obtain ⟨v', s₄', entered', hmirrors, hs₄', hreveals', hpasses⟩ := hcall κ hs₃'
    refine ⟨δ, κ, v', s₄', _, hδ, hκ, hmirrors, hs₄', hreveals.append hreveals', hgoes ?_⟩
    exact ⟨_, s₃', aim_applied (hevals _) (hevalk _ _), hpasses⟩

/-- Where the evaluation of a tree of the source has a value, its threaded counterpart comes to the
call of its continuation on the mirrored value, and enters the counterparts of the same functions. -/
theorem follows (fuel : Nat) {t : Tree} (ht : Surface false t) : Follows F V G G' base fuel t := by
  induction fuel using Nat.strongRecOn generalizing t with
  | ind fuel ihfuel =>
    induction ht with
    | literal value => exact follows_of_isTrivial hG fuel (.literal value) rfl
    | var x => exact follows_of_isTrivial hG fuel (.var x) rfl
    | operation _ hoperands ih => exact operation_follows hG hoperands ih
    | trivialConditional htrivial htest hconseq halt _ _ _ =>
      exact follows_of_isTrivial hG fuel (.trivialConditional htrivial htest hconseq halt) rfl
    | seriousConditional htest _ _ ihtest ihconseq ihalt =>
      exact conditional_follows hG htest ihtest ihconseq ihalt
    | abstraction params hbody _ =>
      exact follows_of_isTrivial hG fuel (.abstraction params hbody) rfl
    | definition name params hnested _ _ => contradiction
    | application hrator hrands ihrator ihrands =>
      apply application_follows hG (fun m hm t ht => ihfuel m hm ht)
      · exact List.forall_mem_cons.mpr ⟨hrator, hrands⟩
      · exact List.forall_mem_cons.mpr ⟨ihrator, ihrands⟩

end Following

/-! ### Values without the account -/

section Leading

variable {rule : Rule} (hrule : ∀ b x y z, apart b x y = .ok z → rule b x y = .ok z)
include hrule

/-- A chain of calls leads from its first call to its last one. -/
theorem Passes.leads {target target' : Value × List Value} {s s' : State}
    {entered : List (List String)} (h : Passes target s entered target' s') :
  Leads (calls rule target.1 target.2 s) (calls rule target'.1 target'.2 s')
  := by
  induction h with
  | refl target s => exact .refl _
  | step hlength haim _ ih =>
    refine .trans (.of_succ ?_) ih
    intro fuel
    rw [calls, callBy, if_pos hlength, evalBy_of_aim hrule _ haim, calls]

/-- A tail leads to the call that it comes to. -/
theorem Arrives.leads {env : Env} {t : Tree} {target : Value × List Value} {s s' : State}
    {entered : List (List String)} (h : Arrives env t s entered target s') :
  Leads (runs rule env t s) (calls rule target.1 target.2 s')
  := by
  obtain ⟨target₁, s₁, haim, hpasses⟩ := h
  refine .trans (.of_eq ?_) (hpasses.leads hrule)
  intro fuel
  rw [runs, evalBy_of_aim hrule _ haim, calls]

/-- Where the evaluation of a tree of the source has a value, its threaded counterpart leads to the
call of its continuation on the mirrored value. -/
theorem leads_of_eval
    {V : Vocabulary} {strict : Prop} {G G' : List (String × Value)} (hG : Globals V strict G G')
    {fuel : Nat} {t : Tree} (ht : Surface false t) (hnames : ∀ x ∈ t.names, V.source x)
    {r : Renaming} {n : Int} {env env' : Env} (h : Scope V r n env env') {s s₁ s' : State} {v : Value}
    (hs : Holds G s) (hv : evalBy apart (callBy apart fuel) env t s = .ok v s₁) {k : Tree}
    (hk : Waits G' env' n (threaded V.ak (some k) (r.tree t) n).2 k) (hs' : Holds G' s') :
  ∃ δ κ v' s₁', Drawn n (threaded V.ak (some k) (r.tree t) n).2 δ ∧ Denotes G' (δ ++ env') k κ
    ∧ Mirrors V v v' ∧ Holds G' s₁'
    ∧ Leads (runs rule env' (threaded V.ak (some k) (r.tree t) n).1 s') (calls rule κ [v'] s₁')
  := by
  obtain ⟨a, rfl⟩ := Account.exists_state s
  obtain ⟨a₁, hv, -⟩ := (shows_evalAt (shows_callAt apart fuel) [] env t).exists_ok hv
  rw [snd_threaded] at hk ⊢
  obtain ⟨ps, -, hfollows⟩ := follows (F := .free) hG fuel ht hnames (fun _ _ => trivial) h
    ⟨hs, List.nil_prefix⟩ hv
  obtain ⟨δ, κ, v', s₁', entered, hδ, hκ, hmirrors, hs₁', -, harrives⟩ := hfollows hk hs'
  exact ⟨δ, κ, v', s₁', hδ, hκ, hmirrors, hs₁', harrives.leads hrule⟩

end Leading

end Springboard.Evaluation
