import Mathlib.Data.List.Nodup
import Mathlib.Data.List.Perm.Subperm
import Springboard.Proofs.Identities
import Springboard.Proofs.Surface

/-!
# Connectives

What `and` and `or` mean: their operands are evaluated from the left, up to the first one whose
value decides the result. The tree of a connective is a nest of conditionals in which a serious
operand is bound to a variable, and in which a trivial one that decides is evaluated again for its
value. The variable occurs in no later operand, so that its binding goes unnoticed there.
-/

namespace Springboard

open Evaluation

namespace Connective

/-! ### Fresh names -/

/-- The name that is found is not taken: of one more candidates than names that are taken, one is
free. -/
theorem firstFree_notMem (base : String) (taken : List String) : firstFree base taken ∉ taken := by
  let name := fun n => base ++ String.ofList (List.replicate n '_')
  have hinjective : Function.Injective name := by
    intro n m h
    have hlength := congrArg String.length h
    simpa [name] using hlength
  have hfound : ((List.range (taken.length + 1)).find? fun n => !taken.contains (name n))
      ≠ none := by
    intro h
    have hall : (List.range (taken.length + 1)).map name ⊆ taken := by
      intro x hx
      obtain ⟨n, hn, rfl⟩ := List.mem_map.mp hx
      have hn := List.find?_eq_none.mp h n hn
      simpa using hn
    have hnodup : ((List.range (taken.length + 1)).map name).Nodup :=
      List.Nodup.map hinjective List.nodup_range
    have hle := (List.subperm_of_subset hnodup hall).length_le
    rw [List.length_map, List.length_range] at hle
    omega
  obtain ⟨n, hn⟩ := Option.ne_none_iff_exists'.mp hfound
  have hfree := List.find?_some hn
  have hname : firstFree base taken = name n := by
    show name _ = name n
    rw [hn, Option.getD_some]
  rw [hname]
  simpa using hfree

/-! ### Branches -/

/-- Whether the value of an operand decides a connective. -/
def decides (c : Connective) (v : Value) : Bool :=
  match c with
  | and => !Operand.isTrue v
  | or => Operand.isTrue v

/-- Similar values decide together. -/
theorem decides_eq {ρ : Pairing} {v v' : Value} (c : Connective) (h : Similar ρ v v') :
  c.decides v = c.decides v'
  := by
  cases c with
  | and => rw [decides, decides, h.isTrue_eq]
  | or => rw [decides, decides, h.isTrue_eq]

/-- Classified or not, a choice is a conditional. -/
theorem exists_choose (test conseq alt : Tree) :
  ∃ sort, Tree.choose test conseq alt = .conditional sort test conseq alt
  := by
  unfold Tree.choose
  split
  · exact ⟨.trivial, rfl⟩
  · exact ⟨.serious, rfl⟩

/-- A branch mentions what its parts do. -/
theorem mem_mentioned_branch (c : Connective) {first others : Tree} {x : String} :
  x ∈ (c.branch first others).mentioned ↔ x ∈ first.mentioned ∨ x ∈ others.mentioned
  := by
  cases c with
  | and =>
    obtain ⟨sort, h⟩ := exists_choose first others first
    rw [branch, h]
    simp only [Tree.mentioned, List.mem_append]
    grind
  | or =>
    obtain ⟨sort, h⟩ := exists_choose first first others
    rw [branch, h]
    simp only [Tree.mentioned, List.mem_append]
    grind

/-- A branch ends when its first operand fails, and else as that operand or as the others, whichever
its value selects. -/
theorem ends_branch (c : Connective) {env : Env} {r : Noted} {first others : Tree}
    {o : EStateM.Result Stop Noted Value} :
  Ends (evaluation env (c.branch first others)) r o ↔
    (∃ e r₁, Ends (evaluation env first) (r.visit (.tree (c.branch first others))) (.error e r₁)
      ∧ o = .error e r₁)
    ∨ ∃ v r₁, Ends (evaluation env first) (r.visit (.tree (c.branch first others))) (.ok v r₁)
      ∧ Ends (evaluation env (if c.decides v then first else others)) r₁ o
  := by
  cases c with
  | and =>
    obtain ⟨sort, h⟩ := exists_choose first others first
    have hparts : ∀ v : Value, (if and.decides v then first else others)
        = if Operand.isTrue v then others else first := by
      intro v
      rw [decides]
      cases Operand.isTrue v <;> rfl
    simp only [hparts]
    rw [branch, h]
    exact ends_conditional
  | or =>
    obtain ⟨sort, h⟩ := exists_choose first first others
    rw [branch, h]
    exact ends_conditional

/-- The tree that binds a first operand to a name and branches on it. -/
def binding (c : Connective) (name : String) (first others : Tree) : Tree :=
  .application (.abstraction [name] (c.branch (.var name) others)) [first]

/-- What is visited before the operand that is bound. -/
def before (c : Connective) (name : String) (first others : Tree) : List Visit :=
  [.tree (c.binding name first others), .tree (.abstraction [name] (c.branch (.var name) others))]

/-- What is visited after the operand that is bound, up to the test of its value. -/
def after (c : Connective) (name : String) (others : Tree) : List Visit :=
  [.function "fn" [name] (c.branch (.var name) others), .tree (c.branch (.var name) others),
    .tree (.var name)]

/-- A tree that binds a first operand ends when that operand fails, and else with its value or as
the others, whichever the value selects. -/
theorem ends_binding (c : Connective) {env : Env} {s : State} {past : List Visit} {name : String}
    {first others : Tree} {o : EStateM.Result Stop Noted Value} :
  Ends (evaluation env (c.binding name first others)) ⟨s, past⟩ o ↔
    (∃ e r₁, Ends (evaluation env first)
        ⟨{ s with made := s.made + 1 }, past ++ c.before name first others⟩ (.error e r₁)
      ∧ o = .error e r₁)
    ∨ ∃ v r₁, Ends (evaluation env first)
        ⟨{ s with made := s.made + 1 }, past ++ c.before name first others⟩ (.ok v r₁)
      ∧ if c.decides v then
          o = .ok v ⟨r₁.state, r₁.visits ++ c.after name others ++ [.tree (.var name)]⟩
        else Ends (evaluation ((name, v) :: env) others)
          ⟨r₁.state, r₁.visits ++ c.after name others⟩ o
  := by
  have hbody : ∀ (v : Value) (r₁ : Noted), Ends (evaluation ((name, v) :: env)
      (c.branch (.var name) others))
        (r₁.visit (.function "fn" [name] (c.branch (.var name) others))) o
      ↔ if c.decides v then
          o = .ok v ⟨r₁.state, r₁.visits ++ c.after name others ++ [.tree (.var name)]⟩
        else Ends (evaluation ((name, v) :: env) others)
          ⟨r₁.state, r₁.visits ++ c.after name others⟩ o := by
    intro v r₁
    have hvar : ((name, v) :: env).lookup name = some v := List.lookup_cons_self
    rw [ends_branch]
    simp only [Evaluation.ends_var hvar, EStateM.Result.ok.injEq, reduceCtorEq, false_and,
      exists_false, false_or]
    constructor
    · rintro ⟨v', r₂, ⟨rfl, rfl⟩, h⟩
      split
      · rename_i hv
        rw [if_pos hv, Evaluation.ends_var hvar] at h
        rw [h]
        simp [Noted.visit, after]
      · rename_i hv
        rw [if_neg hv] at h
        simpa [Noted.visit, after] using h
    · intro h
      refine ⟨v, _, ⟨rfl, rfl⟩, ?_⟩
      split
      · rename_i hv
        rw [if_pos hv] at h
        rw [Evaluation.ends_var hvar, h]
        simp [Noted.visit, after]
      · rename_i hv
        rw [if_neg hv] at h
        simpa [Noted.visit, after] using h
  rw [binding, Evaluation.ends_binding]
  simp only [hbody]
  rfl

end Connective

/-! ### The trees of connectives -/

/-- The trees that stand for a connective over some operands. A trivial operand is tested as it is;
a serious one is bound to a name that no later operand mentions. -/
inductive Lowered (c : Connective) : List Tree → Tree → Prop
  | last (t : Tree) : Lowered c [t] t
  | trivial {t u : Tree} {ts : List Tree} (ht : t.isTrivial = true) (hu : Lowered c ts u) :
      Lowered c (t :: ts) (c.branch t u)
  | serious {t u : Tree} {ts : List Tree} {name : String} (ht : t.isTrivial = false)
      (hname : name ∉ Tree.mentionedAll ts) (hu : Lowered c ts u) :
      Lowered c (t :: ts) (c.binding name t u)

/-- The tree of a connective mentions what its operands do. -/
theorem Lowered.mem_mentioned {c : Connective} {ts : List Tree} {u : Tree} (h : Lowered c ts u)
    {x : String} (hx : x ∈ Tree.mentionedAll ts) :
  x ∈ u.mentioned
  := by
  induction h with
  | last t => simpa [Tree.mentionedAll] using hx
  | trivial ht hu ih =>
    rw [Tree.mentionedAll, List.mem_append] at hx
    rw [Connective.mem_mentioned_branch]
    exact hx.imp id ih
  | serious ht hname hu ih =>
    rw [Tree.mentionedAll, List.mem_append] at hx
    rw [Connective.binding, Tree.mentioned, Tree.mentioned, List.mem_append,
      Connective.mem_mentioned_branch,
      Tree.mentionedAll, Tree.mentionedAll, List.append_nil]
    obtain hx | hx := hx
    · exact .inr hx
    · exact .inl (.inr (ih hx))

/-- Combining a first operand with the tree of the others gives the tree of all. -/
theorem Lowered.combine {c : Connective} {ts : List Tree} {u : Tree} (h : Lowered c ts u)
    (t : Tree) :
  Lowered c (t :: ts) (c.combine t u)
  := by
  unfold Connective.combine
  split
  · rename_i ht
    exact .trivial ht h
  · rename_i ht
    apply Lowered.serious (Bool.eq_false_iff.mpr ht) _ h
    intro hx
    exact Connective.firstFree_notMem _ _ (h.mem_mentioned hx)

namespace Form

/-- Where the operands have trees, their connective has one. -/
theorem exists_surfaceConnective (whole : Form) (c : Connective) {operands : List Form}
    {ts : List Tree} (hne : operands ≠ []) (hts : surfaceAll operands = .ok ts) :
  ∃ t, surfaceConnective whole c operands = .ok t ∧ Lowered c ts t
  := by
  induction operands generalizing ts with
  | nil => contradiction
  | cons first rest ih =>
    rw [surfaceAll, Except.bind_eq_ok] at hts
    obtain ⟨t, ht, hts⟩ := hts
    obtain ⟨ts, hrest, hts⟩ := Except.bind_eq_ok.mp hts
    cases hts
    rw [surfaceConnective]
    cases rest with
    | nil =>
      rw [surfaceAll] at hrest
      cases hrest
      exact ⟨t, ht, .last t⟩
    | cons second rest =>
      obtain ⟨u, hu, hlowered⟩ := ih (List.cons_ne_nil _ _) hrest
      refine ⟨c.combine t u, ?_, hlowered.combine t⟩
      rw [if_neg (by simp), ht, hu]
      rfl

/-- The tree of a group with a connective at its head. -/
theorem surface_connective (c : Connective) (place headPlace : Position) (bracket : Bracket)
    (operands : List Form) :
  surface (.group place bracket (.symbol headPlace c.name :: operands))
    = surfaceConnective (.group place bracket (.symbol headPlace c.name :: operands)) c operands
  := by
  rw [surface, surfaceGroup.eq_def]
  cases c with
  | and => rfl
  | or => rfl

end Form

namespace Evaluation

/-! ### Operands from the left -/

/-- The operands of a connective are evaluated from the left, each from the state that the one
before it left. The first that fails or decides is the last one to be evaluated; `visits` has what
each of those that are evaluated visits. -/
inductive Tried (c : Connective) (env : Env) :
    State → List Tree → List (List Visit) → EStateM.Result Stop State Value → Prop
  | fails {s s₁ : State} {t : Tree} {e : Stop} {d : List Visit} (ts : List Tree)
      (h : Evaluates env s t (.error e s₁) d) : Tried c env s (t :: ts) [d] (.error e s₁)
  | last {s s₁ : State} {t : Tree} {v : Value} {d : List Visit}
      (h : Evaluates env s t (.ok v s₁) d) : Tried c env s [t] [d] (.ok v s₁)
  | decides {s s₁ : State} {t : Tree} {v : Value} {d : List Visit} (ts : List Tree)
      (h : Evaluates env s t (.ok v s₁) d) (hv : c.decides v = true) :
      Tried c env s (t :: ts) [d] (.ok v s₁)
  | goesOn {s s₁ : State} {t : Tree} {ts : List Tree} {v : Value} {d : List Visit}
      {visits : List (List Visit)} {r : EStateM.Result Stop State Value}
      (h : Evaluates env s t (.ok v s₁) d) (hv : c.decides v = false)
      (hrest : Tried c env s₁ ts visits r) : Tried c env s (t :: ts) (d :: visits) r

/-- The visits of a tree that stands for a connective, made of those of the operands that are
evaluated. A trivial operand that decides is visited twice, a serious one never. -/
inductive Woven (c : Connective) : List Tree → Tree → List (List Visit) → List Visit → Prop
  | last (t : Tree) (d : List Visit) : Woven c [t] t [d] d
  | trivialFails {t u : Tree} (ts : List Tree) (d : List Visit) (ht : t.isTrivial = true) :
      Woven c (t :: ts) (c.branch t u) [d] ([.tree (c.branch t u)] ++ d)
  | trivialDecides {t u : Tree} (ts : List Tree) (d : List Visit) (ht : t.isTrivial = true) :
      Woven c (t :: ts) (c.branch t u) [d] ([.tree (c.branch t u)] ++ d ++ d)
  | trivialGoesOn {t u : Tree} {ts : List Tree} {visits : List (List Visit)} {rest : List Visit}
      (d : List Visit) (ht : t.isTrivial = true) (h : Woven c ts u visits rest) :
      Woven c (t :: ts) (c.branch t u) (d :: visits) ([.tree (c.branch t u)] ++ d ++ rest)
  | seriousFails {t u : Tree} {name : String} (ts : List Tree) (d : List Visit)
      (ht : t.isTrivial = false) :
      Woven c (t :: ts) (c.binding name t u) [d] (c.before name t u ++ d)
  | seriousDecides {t u : Tree} {name : String} (ts : List Tree) (d : List Visit)
      (ht : t.isTrivial = false) :
      Woven c (t :: ts) (c.binding name t u) [d]
        (c.before name t u ++ d ++ c.after name u ++ [.tree (.var name)])
  | seriousGoesOn {t u : Tree} {name : String} {ts : List Tree} {visits : List (List Visit)}
      {rest : List Visit} (d : List Visit) (ht : t.isTrivial = false)
      (h : Woven c ts u visits rest) :
      Woven c (t :: ts) (c.binding name t u) (d :: visits)
        (c.before name t u ++ d ++ c.after name u ++ rest)

/-- Outcomes that are the same up to the identities of functions: both have similar values, or both
stop for the same reason. -/
inductive SameOutcome (ρ : Pairing) :
    EStateM.Result Stop State Value → EStateM.Result Stop State Value → Prop
  | ok {ρ' : Pairing} {s s' : State} {v v' : Value} (hρ : Subrelation ρ ρ') (hs : Linked ρ' s s')
      (hv : Similar ρ' v v') : SameOutcome ρ (.ok v s) (.ok v' s')
  | error {ρ' : Pairing} {s s' : State} (e : Stop) (hρ : Subrelation ρ ρ') (hs : Linked ρ' s s') :
      SameOutcome ρ (.error e s) (.error e s')

/-! ### Trivial operands -/

/-- Where it has a value, `x` has left the global names as they were, and has made functions at
most. -/
def Modest {α : Type} (x : Noting α) : Prop :=
  ∀ r a r₁, x r = .ok a r₁ → r₁.state.globals = r.state.globals ∧ r.state.made ≤ r₁.state.made

section Modest

variable {α β : Type}

/-- Steps that leave the state alone are modest. -/
theorem modest_of_state {x : Eval α} (h : ∀ s a s₁, x s = .ok a s₁ → s₁ = s) :
  Modest (quietly x)
  := by
  intro r a r₁ hx
  unfold quietly at hx
  cases hs : x r.state with
  | error e s₁ =>
    rw [hs] at hx
    contradiction
  | ok b s₁ =>
    rw [hs] at hx
    cases hx
    rw [h _ _ _ hs]
    exact ⟨rfl, Nat.le_refl _⟩

/-- Sequences are modest when their parts are. -/
theorem Modest.bind {x : Noting α} {f : α → Noting β} (hx : Modest x) (hf : ∀ a, Modest (f a)) :
  Modest (x >>= f)
  := by
  intro r b r₂ h
  obtain ⟨a, r₁, ha, hb⟩ := bind_eq_ok.mp h
  obtain ⟨hglobals, hmade⟩ := hx r a r₁ ha
  obtain ⟨hglobals', hmade'⟩ := hf a r₁ b r₂ hb
  exact ⟨hglobals'.trans hglobals, Nat.le_trans hmade hmade'⟩

/-- Notes are modest. -/
theorem Modest.after_note {x : Noting α} (hx : Modest x) (visit : Visit) :
  Modest (note visit >>= fun _ => x)
  := by
  intro r a r₁ h
  exact hx (r.visit visit) a r₁ h

/-- Values are modest. -/
theorem modest_pure (a : α) : Modest (pure a) := by
  rintro r b r₁ ⟨⟩
  exact ⟨rfl, Nat.le_refl _⟩

end Modest

/-- The evaluation of a trivial tree calls nothing, and so defines nothing. -/
theorem modest_of_isTrivial {nested : Bool} {t : Tree} (ht : Surface nested t)
    (htrivial : t.isTrivial = true) (call : Value → List Value → Noting Value) (env : Env) :
  Modest (evalNoting call env t)
  := by
  induction ht with
  | literal n =>
    rw [evalNoting]
    exact (modest_pure _).after_note _
  | var x =>
    rw [evalNoting]
    apply Modest.after_note
    apply modest_of_state
    intro s v s₁ h
    exact (lookup_eq_ok.mp h).2.symm
  | @operation op operands hcount hoperands ih =>
    have hall : Modest (evalAllNoting call env operands) := by
      rw [Tree.isTrivial] at htrivial
      clear hcount hoperands
      induction operands with
      | nil =>
        rw [evalAllNoting]
        exact modest_pure []
      | cons t ts ih' =>
        rw [Tree.allTrivial, Bool.and_eq_true] at htrivial
        rw [evalAllNoting]
        apply (ih t List.mem_cons_self htrivial.1).bind
        intro first
        apply (ih' (fun u hu => ih u (List.mem_cons_of_mem t hu)) htrivial.2).bind
        intro rest
        exact modest_pure _
    rw [evalNoting]
    apply Modest.after_note
    apply hall.bind
    intro values
    apply modest_of_state
    intro s v s₁ h
    cases hv : op.evaluate values with
    | error e =>
      rw [hv] at h
      contradiction
    | ok w =>
      rw [hv] at h
      cases h
      rfl
  | trivialConditional hparts _ _ _ ihtest ihconseq ihalt =>
    rw [evalNoting]
    apply Modest.after_note
    apply (ihtest hparts.1).bind
    intro decision
    split
    · exact ihconseq hparts.2.1
    · exact ihalt hparts.2.2
  | abstraction params _ _ =>
    rw [evalNoting]
    apply Modest.after_note
    rintro r v r₁ ⟨⟩
    exact ⟨rfl, Nat.le_succ _⟩
  | seriousConditional _ _ _ _ _ _ => contradiction
  | definition name params _ _ _ => contradiction
  | application _ _ _ _ => contradiction

/-! ### The two ways side by side -/

section Ways

variable {ρ ρ' : Pairing} {env env' : Env} {s s' : State} {t : Tree}

/-- A state stays linked with one that has made more functions. -/
theorem Linked.of_globals_eq (hs : Linked ρ s s') {s₁ : State} (hglobals : s₁.globals = s'.globals)
    (hmade : s'.made ≤ s₁.made) :
  Linked ρ s s₁
  := by
  refine ⟨?_, hs.oneToOne, ?_⟩
  · intro a b hab
    exact ⟨(hs.made hab).1, Nat.lt_of_lt_of_le (hs.made hab).2 hmade⟩
  · rw [hglobals]
    exact hs.globals

/-- Outcomes that are the same under a larger pairing are the same. -/
theorem SameOutcome.mono (hρ : Subrelation ρ ρ') {r r' : EStateM.Result Stop State Value}
    (h : SameOutcome ρ' r r') :
  SameOutcome ρ r r'
  := by
  cases h with
  | ok hρ' hs hv => exact .ok (fun hab => hρ' (hρ hab)) hs hv
  | error e hρ' hs => exact .error e (fun hab => hρ' (hρ hab)) hs

/-- An outcome is the only one. -/
theorem Ends.unique {α : Type} {x : Nat → Noting α} (hx : Stable x) {r : Noted}
    {o o' : EStateM.Result Stop Noted α} (h : Ends x r o) (h' : Ends x r o') :
  o = o'
  := by
  obtain ⟨⟨n, hn⟩, ho⟩ := h
  obtain ⟨⟨m, hm⟩, ho'⟩ := h'
  rw [← hx.eq_of_le (Nat.le_max_left n m) hn ho, hx.eq_of_le (Nat.le_max_right n m) hm ho']

/-- What an evaluation comes to, the other comes to as well, after the same visits. -/
theorem Linked.forth (hs : Linked ρ s s') (henv : ∀ x ∈ t.mentioned, SimilarAt ρ env env' x)
    {r : EStateM.Result Stop State Value} {d : List Visit} (h : Evaluates env s t r d)
    (past : List Visit) :
  ∃ r', Ends (evaluation env' t) ⟨s', past⟩ (noted (past ++ d) r') ∧ SameOutcome ρ r r'
  := by
  obtain ⟨⟨fuel, hx⟩, hcut⟩ := evaluates_iff.mp h
  have hcourse := alike_evalNoting (alike_callNoting fuel) t henv ρ s s' [] past id hs
  replace hx : evalNoting (callNoting fuel) env t ⟨s, []⟩ = noted d r := hx
  rw [hx] at hcourse
  generalize hy : evalNoting (callNoting fuel) env' t ⟨s', past⟩ = o at hcourse
  cases r with
  | ok v s₁ =>
    cases hcourse with
    | ok visits hρ hs₁ hv =>
      exact ⟨.ok _ _, ⟨⟨fuel, hy⟩, fun r' => by simp [noted]⟩, .ok hρ hs₁ hv⟩
  | error e s₁ =>
    cases hcourse with
    | error e visits hρ hs₁ =>
      refine ⟨.error e _, ⟨⟨fuel, hy⟩, ?_⟩, .error e hρ hs₁⟩
      rintro r' ⟨⟩
      exact hcut _ rfl

/-- What the other evaluation comes to, the first comes to as well, after the same visits. -/
theorem Linked.back (hs : Linked ρ s s') (henv : ∀ x ∈ t.mentioned, SimilarAt ρ env env' x)
    {past : List Visit} {o : EStateM.Result Stop Noted Value}
    (h : Ends (evaluation env' t) ⟨s', past⟩ o) :
  ∃ r r' d, o = noted (past ++ d) r' ∧ Evaluates env s t r d ∧ SameOutcome ρ r r'
  := by
  obtain ⟨⟨fuel, hy⟩, hcut⟩ := h
  have hcourse := alike_evalNoting (alike_callNoting fuel) t henv ρ s s' [] past id hs
  replace hy : evalNoting (callNoting fuel) env' t ⟨s', past⟩ = o := hy
  rw [hy] at hcourse
  generalize hx : evalNoting (callNoting fuel) env t ⟨s, []⟩ = o' at hcourse
  cases hcourse with
  | @ok _ s₁ s₁' v v' visits hρ hs₁ hv =>
    refine ⟨.ok v s₁, .ok v' s₁', visits, rfl, ?_, .ok hρ hs₁ hv⟩
    exact evaluates_iff.mpr ⟨⟨fuel, hx⟩, fun r' => by simp [noted]⟩
  | @error _ s₁ s₁' e visits hρ hs₁ =>
    refine ⟨.error e s₁, .error e s₁', visits, rfl, ?_, .error e hρ hs₁⟩
    refine evaluates_iff.mpr ⟨⟨fuel, hx⟩, ?_⟩
    rintro r' ⟨⟩
    exact hcut _ rfl

/-- A state stays linked with one in which one more function has been made. -/
theorem Linked.made_succ (hs : Linked ρ s s') : Linked ρ s { s' with made := s'.made + 1 } := by
  exact hs.of_globals_eq rfl (Nat.le_succ _)

/-- A trivial tree that is evaluated a second time comes to the same, up to the identities of
functions. -/
theorem Linked.again (hs : Linked ρ s s') (ht : Surface true t) (htrivial : t.isTrivial = true)
    (henv : ∀ x ∈ t.mentioned, SimilarAt ρ env env' x) {r : EStateM.Result Stop State Value}
    {d past : List Visit} (h : Evaluates env s t r d) {v : Value} {r₁ : Noted}
    (hfirst : Ends (evaluation env' t) ⟨s', past⟩ (.ok v r₁)) :
  ∃ r', Ends (evaluation env' t) r₁ (noted (r₁.visits ++ d) r') ∧ SameOutcome ρ r r'
  := by
  obtain ⟨⟨fuel, hv⟩, -⟩ := hfirst
  obtain ⟨hglobals, hmade⟩ := modest_of_isTrivial ht htrivial _ env' _ _ _ hv
  exact (hs.of_globals_eq hglobals hmade).forth henv h r₁.visits

/-- The binding of a name that is not mentioned goes unnoticed. -/
theorem similarAt_cons {names : List String} (h : ∀ x ∈ names, SimilarAt ρ env env' x)
    {name : String} (hname : name ∉ names) (v : Value) :
  ∀ x ∈ names, SimilarAt ρ env ((name, v) :: env') x
  := by
  intro x hx
  have hne : x ≠ name := fun h => hname (h ▸ hx)
  unfold SimilarAt
  rw [List.lookup_cons, beq_false_of_ne hne]
  exact h x hx

variable {c : Connective} {ts : List Tree} {visits : List (List Visit)}
variable {r : EStateM.Result Stop State Value}

/-- What the operands come to from the left, the tree that stands for the connective comes to. -/
theorem Tried.forth (h : Tried c env s ts visits r) {u : Tree} (hu : Lowered c ts u)
    (hts : ∀ t ∈ ts, Surface true t) (hs : Linked ρ s s')
    (henv : ∀ x ∈ Tree.mentionedAll ts, SimilarAt ρ env env' x) (past : List Visit) :
  ∃ r' d, Ends (evaluation env' u) ⟨s', past⟩ (noted (past ++ d) r') ∧ SameOutcome ρ r r'
    ∧ Woven c ts u visits d
  := by
  induction h generalizing u ρ env' s' past with
  | @fails s s₁ t e d ts h =>
    rw [Tree.mentionedAll] at henv
    simp only [List.mem_append, or_imp, forall_and] at henv
    cases hu with
    | last =>
      obtain ⟨r', hends, hsame⟩ := hs.forth henv.1 h past
      exact ⟨r', d, hends, hsame, .last t d⟩
    | @trivial _ u _ ht hu =>
      obtain ⟨r', hends, hsame⟩ := hs.forth henv.1 h (past ++ [.tree (c.branch t u)])
      cases hsame with
      | error e hρ hs₁ =>
        refine ⟨.error e _, _, ?_, .error e hρ hs₁, .trivialFails ts d ht⟩
        rw [← List.append_assoc, Connective.ends_branch]
        exact .inl ⟨e, _, hends, rfl⟩
    | @serious _ u _ name ht hname hu =>
      obtain ⟨r', hends, hsame⟩ := hs.made_succ.forth henv.1 h (past ++ c.before name t u)
      cases hsame with
      | error e hρ hs₁ =>
        refine ⟨.error e _, _, ?_, .error e hρ hs₁, .seriousFails ts d ht⟩
        rw [← List.append_assoc, Connective.ends_binding]
        exact .inl ⟨e, _, hends, rfl⟩
  | @last s s₁ t v d h =>
    rw [Tree.mentionedAll] at henv
    simp only [List.mem_append, or_imp, forall_and] at henv
    cases hu with
    | last =>
      obtain ⟨r', hends, hsame⟩ := hs.forth henv.1 h past
      exact ⟨r', d, hends, hsame, .last t d⟩
    | trivial ht hu => cases hu
    | serious ht hname hu => cases hu
  | @decides s s₁ t v d ts h hv =>
    rw [Tree.mentionedAll] at henv
    simp only [List.mem_append, or_imp, forall_and] at henv
    cases hu with
    | last =>
      obtain ⟨r', hends, hsame⟩ := hs.forth henv.1 h past
      exact ⟨r', d, hends, hsame, .last t d⟩
    | @trivial _ u _ ht hu =>
      obtain ⟨r', hfirst, hsame⟩ := hs.forth henv.1 h (past ++ [.tree (c.branch t u)])
      cases hsame with
      | ok _ _ hv' =>
        obtain ⟨r'', hsecond, hsame⟩ := hs.again (hts t List.mem_cons_self) ht henv.1 h hfirst
        refine ⟨r'', _, ?_, hsame, .trivialDecides ts d ht⟩
        rw [← List.append_assoc, ← List.append_assoc, Connective.ends_branch]
        refine .inr ⟨_, _, hfirst, ?_⟩
        rw [if_pos (c.decides_eq hv' ▸ hv)]
        exact hsecond
    | @serious _ u _ name ht hname hu =>
      obtain ⟨r', hfirst, hsame⟩ := hs.made_succ.forth henv.1 h (past ++ c.before name t u)
      cases hsame with
      | ok hρ hs₁ hv' =>
        refine ⟨.ok _ _, _, ?_, .ok hρ hs₁ hv', .seriousDecides ts d ht⟩
        rw [Connective.ends_binding]
        refine .inr ⟨_, _, hfirst, ?_⟩
        rw [if_pos (c.decides_eq hv' ▸ hv)]
        simp only [noted, List.append_assoc]
  | @goesOn s s₁ t ts v d visits r h hv hrest ih =>
    rw [Tree.mentionedAll] at henv
    simp only [List.mem_append, or_imp, forall_and] at henv
    have hts' : ∀ u ∈ ts, Surface true u := fun u hu => hts u (List.mem_cons_of_mem t hu)
    cases hu with
    | last => cases hrest
    | @trivial _ u _ ht hu =>
      obtain ⟨r', hfirst, hsame⟩ := hs.forth henv.1 h (past ++ [.tree (c.branch t u)])
      cases hsame with
      | ok hρ hs₁ hv' =>
        obtain ⟨r'', d', hrest, hsame, hwoven⟩ := ih hu hts' hs₁
          (fun x hx => (henv.2 x hx).mono hρ) (past ++ [.tree (c.branch t u)] ++ d)
        refine ⟨r'', _, ?_, hsame.mono hρ, .trivialGoesOn d ht hwoven⟩
        rw [← List.append_assoc, ← List.append_assoc, Connective.ends_branch]
        refine .inr ⟨_, _, hfirst, ?_⟩
        rw [if_neg (by rw [← c.decides_eq hv', hv]; simp)]
        exact hrest
    | @serious _ u _ name ht hname hu =>
      obtain ⟨r', hfirst, hsame⟩ := hs.made_succ.forth henv.1 h (past ++ c.before name t u)
      cases hsame with
      | @ok _ _ _ _ v' hρ hs₁ hv' =>
        obtain ⟨r'', d', hrest, hsame, hwoven⟩ := ih hu hts' hs₁
          (similarAt_cons (fun x hx => (henv.2 x hx).mono hρ) hname v')
          (past ++ c.before name t u ++ d ++ c.after name u)
        refine ⟨r'', _, ?_, hsame.mono hρ, .seriousGoesOn d ht hwoven⟩
        rw [Connective.ends_binding]
        refine .inr ⟨_, _, hfirst, ?_⟩
        rw [if_neg (by rw [← c.decides_eq hv', hv]; simp)]
        simpa only [List.append_assoc] using hrest

/-- What the tree that stands for the connective comes to, the operands come to from the left. -/
theorem exists_tried {u : Tree} (hu : Lowered c ts u) (hts : ∀ t ∈ ts, Surface true t)
    (hs : Linked ρ s s') (henv : ∀ x ∈ Tree.mentionedAll ts, SimilarAt ρ env env' x)
    {past : List Visit} {o : EStateM.Result Stop Noted Value}
    (h : Ends (evaluation env' u) ⟨s', past⟩ o) :
  ∃ visits r r' d, o = noted (past ++ d) r' ∧ Tried c env s ts visits r ∧ SameOutcome ρ r r'
    ∧ Woven c ts u visits d
  := by
  induction hu generalizing ρ env' s s' past o with
  | last t =>
    rw [Tree.mentionedAll] at henv
    simp only [List.mem_append, or_imp, forall_and] at henv
    obtain ⟨r, r', d, ho, heval, hsame⟩ := hs.back henv.1 h
    refine ⟨[d], r, r', d, ho, ?_, hsame, .last t d⟩
    cases r with
    | ok v s₁ => exact .last heval
    | error e s₁ => exact .fails [] heval
  | @trivial t u ts ht hu ih =>
    rw [Tree.mentionedAll] at henv
    simp only [List.mem_append, or_imp, forall_and] at henv
    have hts' : ∀ u ∈ ts, Surface true u := fun u hu => hts u (List.mem_cons_of_mem t hu)
    rw [Connective.ends_branch] at h
    obtain ⟨e, r₁, hfirst, rfl⟩ | ⟨v', r₁, hfirst, hrest⟩ := h
    · obtain ⟨r, r', d, ho, heval, hsame⟩ := hs.back henv.1 hfirst
      cases hsame with
      | ok _ _ _ => contradiction
      | error e' hρ hs₁ =>
        refine ⟨[d], _, _, _, ?_, .fails ts heval, .error e' hρ hs₁, .trivialFails ts d ht⟩
        rw [ho, ← List.append_assoc]
    · obtain ⟨r, r', d, ho, heval, hsame⟩ := hs.back henv.1 hfirst
      cases hsame with
      | error _ _ _ => contradiction
      | @ok _ s₁ s₁' v w hρ hs₁ hv' =>
        cases ho
        cases hv : c.decides v with
        | true =>
          rw [if_pos (c.decides_eq hv' ▸ hv)] at hrest
          obtain ⟨r'', hsecond, hsame⟩ := hs.again (hts t List.mem_cons_self) ht henv.1 heval hfirst
          refine ⟨[d], _, r'', _, ?_, .decides ts heval hv, hsame, .trivialDecides ts d ht⟩
          rw [hrest.unique (stable_evaluation _ _) hsecond]
          simp only [List.append_assoc]
        | false =>
          rw [if_neg (by rw [← c.decides_eq hv', hv]; simp)] at hrest
          obtain ⟨visits, r, r', d', rfl, htried, hsame, hwoven⟩ := ih hts' hs₁
            (fun x hx => (henv.2 x hx).mono hρ) hrest
          refine ⟨d :: visits, r, r', _, ?_, .goesOn heval hv htried, hsame.mono hρ,
            .trivialGoesOn d ht hwoven⟩
          rw [← List.append_assoc, ← List.append_assoc]
  | @serious t u ts name ht hname hu ih =>
    rw [Tree.mentionedAll] at henv
    simp only [List.mem_append, or_imp, forall_and] at henv
    have hts' : ∀ u ∈ ts, Surface true u := fun u hu => hts u (List.mem_cons_of_mem t hu)
    rw [Connective.ends_binding] at h
    obtain ⟨e, r₁, hfirst, rfl⟩ | ⟨v', r₁, hfirst, hrest⟩ := h
    · obtain ⟨r, r', d, ho, heval, hsame⟩ := hs.made_succ.back henv.1 hfirst
      cases hsame with
      | ok _ _ _ => contradiction
      | error e' hρ hs₁ =>
        refine ⟨[d], _, _, _, ?_, .fails ts heval, .error e' hρ hs₁, .seriousFails ts d ht⟩
        rw [ho, ← List.append_assoc]
    · obtain ⟨r, r', d, ho, heval, hsame⟩ := hs.made_succ.back henv.1 hfirst
      cases hsame with
      | error _ _ _ => contradiction
      | @ok _ s₁ s₁' v w hρ hs₁ hv' =>
        cases ho
        cases hv : c.decides v with
        | true =>
          rw [if_pos (c.decides_eq hv' ▸ hv)] at hrest
          refine ⟨[d], _, .ok v' s₁', _, ?_, .decides ts heval hv, .ok hρ hs₁ hv',
            .seriousDecides ts d ht⟩
          rw [hrest]
          simp only [noted, List.append_assoc]
        | false =>
          rw [if_neg (by rw [← c.decides_eq hv', hv]; simp)] at hrest
          obtain ⟨visits, r, r', d', rfl, htried, hsame, hwoven⟩ := ih hts' hs₁
            (similarAt_cons (fun x hx => (henv.2 x hx).mono hρ) hname v') hrest
          refine ⟨d :: visits, r, r', _, ?_, .goesOn heval hv htried, hsame.mono hρ,
            .seriousGoesOn d ht hwoven⟩
          simp only [List.append_assoc]

end Ways

/-- The functions in an outcome have been made. -/
def KnownAfter : EStateM.Result Stop State Value → Prop
  | .ok v s => s.Known ∧ v.Known s.made
  | .error _ s => s.Known

/-- Evaluation goes from known values to known values. -/
theorem Evaluates.knownAfter {env : Env} {s : State} {t : Tree}
    {r : EStateM.Result Stop State Value} {d : List Visit} (h : Evaluates env s t r d)
    (henv : Env.Known s.made env) (hs : s.Known) :
  KnownAfter r
  := by
  obtain ⟨fuel, hr, -, -⟩ := h
  have hkeeps := keeps_evalWith (keeps_call fuel) t henv
  cases r with
  | ok v s₁ => exact (hkeeps.ok (Nat.le_refl _) hs hr).2
  | error e s₁ => exact (hkeeps.error (Nat.le_refl _) hs hr).2

end Evaluation

/-- Operands that have trees have a connective that has one. It evaluates them from the left, up to
the first that fails or decides, with the same outcome up to the identities of functions: the tree
comes to an outcome just when the operands do. Each operand that is evaluated is visited once,
except that a trivial one which decides is visited twice, and in between only what the connective
brings in is visited; no operand after the deciding one is. A name that the connective binds is not
mentioned in any later operand. This holds in every environment whose functions have been made, and
evaluation leads to such environments only. -/
theorem connective_evaluates_from_left (c : Connective) (place headPlace : Position)
    (bracket : Bracket) {operands : List Form} {ts : List Tree} (hne : operands ≠ [])
    (hts : Form.surfaceAll operands = .ok ts) :
  ∃ t, Form.surface (.group place bracket (.symbol headPlace c.name :: operands)) = .ok t
    ∧ Lowered c ts t
    ∧ ∀ (env : Env) (s : State), Env.Known s.made env → s.Known →
      (∀ visits r, Tried c env s ts visits r → ∃ r' d, Evaluates env s t r' d
        ∧ SameOutcome (Pairing.upTo s.made) r r' ∧ Woven c ts t visits d)
      ∧ ∀ r' d, Evaluates env s t r' d → KnownAfter r' ∧ ∃ visits r, Tried c env s ts visits r
        ∧ SameOutcome (Pairing.upTo s.made) r r' ∧ Woven c ts t visits d
  := by
  obtain ⟨t, ht, hlowered⟩ := Form.exists_surfaceConnective
    (.group place bracket (.symbol headPlace c.name :: operands)) c hne hts
  have hsurface := (Form.surface_of_surfaceAll operands ts hts).2
  refine ⟨t, ?_, hlowered, ?_⟩
  · rw [Form.surface_connective, ht]
  · intro env s henv hs
    have hsimilar : ∀ x ∈ Tree.mentionedAll ts, SimilarAt (Pairing.upTo s.made) env env x :=
      fun x _ => henv.similarAt x
    constructor
    · intro visits r htried
      obtain ⟨r', d, hends, hsame, hwoven⟩ := htried.forth hlowered hsurface hs.linked hsimilar []
      exact ⟨r', d, evaluates_iff.mpr hends, hsame, hwoven⟩
    · intro r' d heval
      refine ⟨heval.knownAfter henv hs, ?_⟩
      obtain ⟨visits, r, r'', d', ho, htried, hsame, hwoven⟩ := exists_tried hlowered hsurface
        hs.linked hsimilar (evaluates_iff.mp heval)
      obtain rfl : r' = r'' := by
        rw [← unnoted_noted d r', ho, unnoted_noted]
      obtain rfl : d = d' := by
        rw [← visited_noted d r', ho, visited_noted, List.nil_append]
      exact ⟨visits, r, htried, hsame, hwoven⟩

/-- The operands of `(and (f x) and__ (g and___))`. -/
def capturedOperands : List Form :=
  [.group ⟨1, 5⟩ .round [.symbol ⟨1, 6⟩ "f", .symbol ⟨1, 8⟩ "x"], .symbol ⟨1, 11⟩ "and__",
    .group ⟨1, 17⟩ .round [.symbol ⟨1, 18⟩ "g", .symbol ⟨1, 20⟩ "and___"]]

/-- The trees of those operands. -/
def capturedTrees : List Tree :=
  [.application (.var "f") [.var "x"], .var "and__", .application (.var "g") [.var "and___"]]

/-- An environment for those operands, in which the names that a connective would bind first have
values of their own. -/
def capturedEnv : Env :=
  [("f", .closure 0 "fn" ["y"] (.var "y") []), ("g", .closure 1 "fn" ["y"] (.var "y") []),
    ("x", .number (.int 1)), ("and__", .number (.int 2)), ("and___", .number (.int 3))]

/-- The names that are mentioned keep their values behind the one that is bound. -/
theorem connective_evaluates_from_left_captured :
  capturedOperands ≠ [] ∧ Form.surfaceAll capturedOperands = .ok capturedTrees
    ∧ ∃ t, Form.surface (.group ⟨1, 0⟩ .round (.symbol ⟨1, 1⟩ "and" :: capturedOperands)) = .ok t
      ∧ ∃ r d, Evaluates capturedEnv ⟨[], 2⟩ t r d
        ∧ SameOutcome (Pairing.upTo 2) (.ok (.number (.int 3)) ⟨[], 2⟩) r
  := by
  have hts : Form.surfaceAll capturedOperands = .ok capturedTrees := by
    rfl
  have henv : Env.Known 2 capturedEnv := by
    intro b hb
    simp only [capturedEnv, List.mem_cons, List.not_mem_nil, or_false] at hb
    rcases hb with rfl | rfl | rfl | rfl | rfl
    · exact .closure _ _ _ (by decide) (by simp)
    · exact .closure _ _ _ (by decide) (by simp)
    · exact .number _
    · exact .number _
    · exact .number _
  have hknown : State.Known ⟨[], 2⟩ := by
    intro b hb
    contradiction
  have hfirst : ∃ d, Evaluates capturedEnv ⟨[], 2⟩ (.application (.var "f") [.var "x"])
      (.ok (.number (.int 1)) ⟨[], 2⟩) d := ⟨_, 1, rfl, by simp, rfl⟩
  have hsecond : ∃ d, Evaluates capturedEnv ⟨[], 2⟩ (.var "and__")
      (.ok (.number (.int 2)) ⟨[], 2⟩) d := ⟨_, 0, rfl, by simp, rfl⟩
  have hthird : ∃ d, Evaluates capturedEnv ⟨[], 2⟩ (.application (.var "g") [.var "and___"])
      (.ok (.number (.int 3)) ⟨[], 2⟩) d := ⟨_, 1, rfl, by simp, rfl⟩
  obtain ⟨d₁, hfirst⟩ := hfirst
  obtain ⟨d₂, hsecond⟩ := hsecond
  obtain ⟨d₃, hthird⟩ := hthird
  obtain ⟨t, ht, -, hall⟩ := connective_evaluates_from_left .and ⟨1, 0⟩ ⟨1, 1⟩ .round
    (List.cons_ne_nil _ _) hts
  obtain ⟨r, d, heval, hsame, -⟩ := (hall capturedEnv ⟨[], 2⟩ henv hknown).1 _ _
    (.goesOn hfirst rfl (.goesOn hsecond rfl (.last hthird)))
  exact ⟨List.cons_ne_nil _ _, hts, t, ht, r, d, heval, hsame⟩

end Springboard
