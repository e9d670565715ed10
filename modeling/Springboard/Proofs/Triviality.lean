import Springboard.Proofs.Nodes
import Springboard.Proofs.Noting

/-!
# Trivial trees call nothing

Whether a tree is trivial is found out from its kind, and for a conditional from what it was
classified as when it was made. Main statement: of the trees that are read, and of all that stands in
them, exactly those are trivial that hold no application and no definition outside of the bodies of
functions; and evaluating them ends in every environment, with a value or an error, without entering
a function.
-/

namespace Springboard

/-! ### Trees without calls -/

/-- One tree stands in another, outside of the bodies of functions in it. -/
def Tree.Exposes : Tree → Tree → Prop :=
  Relation.ReflTransGen fun t c => t.kind? ≠ some .abstraction ∧ c ∈ t.children

/-- Outside of the bodies of functions a tree holds no application and no definition. -/
def Tree.IsCallFree (t : Tree) : Prop :=
  ∀ u, t.Exposes u → u.kind? ≠ some .application ∧ u.kind? ≠ some .definition

namespace Tree

/-- A tree is without calls when it is neither of the two itself and, unless it is a function, its
children are without calls. -/
theorem isCallFree_iff {t : Tree} :
  t.IsCallFree ↔ (t.kind? ≠ some .application ∧ t.kind? ≠ some .definition)
    ∧ (t.kind? ≠ some .abstraction → ∀ c ∈ t.children, c.IsCallFree)
  := by
  constructor
  · intro h
    refine ⟨h t .refl, ?_⟩
    intro hkind c hc u hu
    exact h u (.head ⟨hkind, hc⟩ hu)
  · rintro ⟨hself, hchildren⟩ u hu
    obtain rfl | ⟨c, ⟨hkind, hc⟩, hu⟩ := Relation.ReflTransGen.cases_head_iff.mp hu
    · exact hself
    · exact hchildren hkind c hc u hu

/-- All of some trees are trivial when each of them is. -/
theorem allTrivial_iff {ts : List Tree} : allTrivial ts ↔ ∀ t ∈ ts, t.isTrivial := by
  induction ts with
  | nil => simp [allTrivial]
  | cons t ts ih => simp [allTrivial, ih]

/-- The conditional of three parts is trivial when they are. -/
theorem isTrivial_choose (test conseq alt : Tree) :
  (choose test conseq alt).isTrivial = (test.isTrivial && conseq.isTrivial && alt.isTrivial)
  := by
  unfold choose
  split
  · rename_i h
    rw [h, isTrivial]
    rfl
  · rename_i h
    rw [Bool.eq_false_iff.mpr h, isTrivial]
    rfl

end Tree

/-- What a form means is trivial just when it is without calls. -/
theorem Built.isTrivial_iff {t : Tree} (h : Built t) : t.isTrivial ↔ t.IsCallFree := by
  rw [Tree.isCallFree_iff]
  induction h with
  | literal value => simp [Tree.isTrivial, Tree.kind?, Tree.children]
  | var name => simp [Tree.isTrivial, Tree.kind?, Tree.children]
  | operation _ _ ih =>
    simp only [← Tree.isCallFree_iff] at ih
    simp only [Tree.isTrivial, Tree.allTrivial_iff, Tree.kind?, Tree.children]
    simpa using forall₂_congr ih
  | @choose test conseq alt _ _ _ ihtest ihconseq ihalt =>
    obtain ⟨sort, hchoose, -, -⟩ := Tree.choose_eq test conseq alt
    simp only [← Tree.isCallFree_iff] at ihtest ihconseq ihalt
    rw [Tree.isTrivial_choose, hchoose]
    simp [Tree.kind?, Tree.children, ihtest, ihconseq, ihalt, and_assoc]
  | abstraction params _ _ => simp [Tree.isTrivial, Tree.kind?]
  | definition name params _ _ => simp [Tree.isTrivial, Tree.kind?]
  | application _ _ _ _ => simp [Tree.isTrivial, Tree.kind?]

/-! ### Evaluation without calls -/

namespace Evaluation

/-- A computation that may make calls, but does not: from every state it has the same outcome
whatever calls do, it is not cut short, and it visits trees only. -/
def CallsNothing {α : Type} (x : (Value → List Value → Noting Value) → Noting α) : Prop :=
  ∀ r, ∃ o, (∀ call, x call r = o) ∧ (∀ r', o ≠ .error .outOfFuel r')
    ∧ ∃ ts : List Tree, visited o = r.visits ++ ts.map .tree

section CallsNothing

variable {α β : Type}

/-- A value calls nothing. -/
theorem callsNothing_pure (a : α) : CallsNothing fun _ => pure a := by
  intro r
  exact ⟨.ok a r, fun _ => rfl, fun r' h => by contradiction, [], by simp [visited]⟩

/-- A step that visits nothing calls nothing, unless it is cut short. -/
theorem callsNothing_quietly {x : Eval α} (hx : ∀ s s', x s ≠ .error .outOfFuel s') :
  CallsNothing fun _ => quietly x
  := by
  intro r
  have hvisits : visited (quietly x r) = r.visits := by
    unfold quietly
    cases x r.state with
    | ok a s => rfl
    | error e s => rfl
  refine ⟨_, fun _ => rfl, ?_, [], by simp [hvisits]⟩
  intro r' h
  unfold quietly at h
  cases hs : x r.state with
  | ok a s =>
    rw [hs] at h
    contradiction
  | error e s =>
    rw [hs] at h
    cases h
    exact hx _ _ hs

/-- Steps that call nothing call nothing one after the other. -/
theorem CallsNothing.bind {x : (Value → List Value → Noting Value) → Noting α}
    {f : α → (Value → List Value → Noting Value) → Noting β}
    (hx : CallsNothing x) (hf : ∀ a, CallsNothing (f a)) :
  CallsNothing fun call => x call >>= fun a => f a call
  := by
  intro r
  obtain ⟨o, ho, hcut, ts, hts⟩ := hx r
  cases o with
  | error e r₁ =>
    refine ⟨.error e r₁, fun call => bind_of_error (ho call), ?_, ts, hts⟩
    rintro r' ⟨⟩
    exact hcut r₁ rfl
  | ok a r₁ =>
    obtain ⟨o', ho', hcut', us, hus⟩ := hf a r₁
    refine ⟨o', fun call => (bind_of_ok (ho call)).trans (ho' call), hcut', ts ++ us, ?_⟩
    replace hts : r₁.visits = _ := hts
    rw [hus, hts, List.map_append, List.append_assoc]

/-- To visit a tree is not to call anything. -/
theorem CallsNothing.after_note {x : (Value → List Value → Noting Value) → Noting α}
    (hx : CallsNothing x) (t : Tree) :
  CallsNothing fun call => note (.tree t) >>= fun _ => x call
  := by
  intro r
  obtain ⟨o, ho, hcut, ts, hts⟩ := hx (r.visit (.tree t))
  refine ⟨o, ho, hcut, t :: ts, ?_⟩
  rw [hts, Noted.visit, List.map_cons, List.append_assoc]
  rfl

end CallsNothing

/-- To look up a name is never cut short. -/
theorem lookup_ne_outOfFuel (env : Env) (x : String) (s s' : State) :
  lookup env x s ≠ .error .outOfFuel s'
  := by
  unfold lookup
  cases env.lookup x with
  | some v => exact fun h => by contradiction
  | none =>
    have hget : (get : Eval State) s = .ok s s := rfl
    dsimp only
    rw [bind_of_ok hget]
    cases s.globals.lookup x with
    | some v => exact fun h => by contradiction
    | none => exact fun h => by injection h with h; contradiction

/-- A step that may fault is never cut short. -/
theorem attempt_ne_outOfFuel {α : Type} (x : Except Fault α) (s s' : State) :
  attempt x s ≠ .error .outOfFuel s'
  := by
  cases x with
  | ok a => exact fun h => by contradiction
  | error e => exact fun h => by injection h with h; contradiction

/-- Evaluation of trees that call nothing does so from left to right. -/
theorem callsNothing_evalAllNoting {env : Env} {ts : List Tree}
    (h : ∀ t ∈ ts, CallsNothing fun call => evalNoting call env t) :
  CallsNothing fun call => evalAllNoting call env ts
  := by
  induction ts with
  | nil =>
    simp only [evalAllNoting]
    exact callsNothing_pure []
  | cons t ts ih =>
    simp only [evalAllNoting]
    apply (h t List.mem_cons_self).bind
    intro first
    apply (ih fun t ht => h t (List.mem_cons_of_mem _ ht)).bind
    intro rest
    exact callsNothing_pure _

/-- The evaluation of a trivial tree calls nothing. -/
theorem callsNothing_of_isTrivial {nested : Bool} {t : Tree} (ht : Surface nested t)
    (htrivial : t.isTrivial) (env : Env) :
  CallsNothing fun call => evalNoting call env t
  := by
  induction ht with
  | literal n =>
    simp only [evalNoting]
    exact (callsNothing_pure _).after_note _
  | var x =>
    simp only [evalNoting]
    exact (callsNothing_quietly (lookup_ne_outOfFuel env x)).after_note _
  | @operation op operands _ _ ih =>
    rw [Tree.isTrivial, Tree.allTrivial_iff] at htrivial
    simp only [evalNoting]
    apply CallsNothing.after_note
    apply (callsNothing_evalAllNoting fun t ht => ih t ht (htrivial t ht)).bind
    intro values
    exact callsNothing_quietly (attempt_ne_outOfFuel _)
  | trivialConditional hparts _ _ _ ihtest ihconseq ihalt =>
    simp only [evalNoting]
    apply CallsNothing.after_note
    apply (ihtest hparts.1).bind
    intro decision
    by_cases htrue : Operand.isTrue decision
    · simpa only [if_pos htrue] using ihconseq hparts.2.1
    · simpa only [if_neg htrue] using ihalt hparts.2.2
  | abstraction params _ _ =>
    simp only [evalNoting]
    apply CallsNothing.after_note
    apply callsNothing_quietly
    intro s s' h
    contradiction
  | seriousConditional _ _ _ _ _ _ => contradiction
  | definition name params _ _ _ => contradiction
  | application _ _ _ _ => contradiction

/-- Where evaluation calls nothing, it has one outcome and makes the same visits with any fuel, even
with none. -/
theorem CallsNothing.evaluates {env : Env} {t : Tree}
    (h : CallsNothing fun call => evalNoting call env t) (s : State) :
  ∃ r ts, (∀ fuel, evalWith (call fuel) env t s = r
      ∧ visited (evaluation env t fuel ⟨s, []⟩) = List.map Visit.tree ts)
    ∧ ∀ s', r ≠ .error .outOfFuel s'
  := by
  obtain ⟨o, ho, hcut, ts, hts⟩ := h ⟨s, []⟩
  refine ⟨unnoted o, ts, ?_, ?_⟩
  · intro fuel
    have hfuel : evaluation env t fuel ⟨s, []⟩ = o := ho (callNoting fuel)
    rw [hfuel]
    refine ⟨?_, hts⟩
    calc evalWith (call fuel) env t s
      _ = unnoted (evaluation env t fuel ⟨s, []⟩) :=
        (erases_evalNoting (erases_callNoting fuel) env t ⟨s, []⟩).symm
      _ = unnoted o := by rw [hfuel]
  · intro s' hs'
    cases o with
    | ok v r₁ => contradiction
    | error e r₁ =>
      cases hs'
      exact hcut r₁ rfl

end Evaluation

/-- **Trivial means without calls.** Let a tree stand anywhere in what is read from a text. It is
trivial just when it holds no application and no definition outside of the bodies of functions. If
so, its evaluation ends in every environment and from every state, with an outcome that takes no
fuel, and what it visits are trees only: it enters no function. -/
theorem isTrivial_iff_isCallFree {text : String} {ts : List Tree} (h : Tree.readAll text = .ok ts)
    {t e : Tree} (ht : t ∈ ts) (he : t.Contains e) :
  (e.isTrivial ↔ e.IsCallFree)
    ∧ (e.isTrivial → ∀ (env : Evaluation.Env) (s : Evaluation.State), ∃ r us,
      (∀ fuel, Evaluation.evalWith (Evaluation.call fuel) env e s = r
        ∧ Evaluation.visited (Evaluation.evaluation env e fuel ⟨s, []⟩)
          = List.map Evaluation.Visit.tree us)
      ∧ ∀ s', r ≠ .error .outOfFuel s')
  := by
  have hbuilt := (built_of_readAll h ht).of_contains he
  refine ⟨hbuilt.isTrivial_iff, ?_⟩
  intro htrivial env s
  exact (Evaluation.callsNothing_of_isTrivial hbuilt.surface htrivial env).evaluates s

/-- A conditional whose only call stands in the body of a function. -/
def deferring : Tree :=
  .conditional .trivial (.var "x")
    (.abstraction ["y"] (.application (.var "f") [.var "y"])) (.literal (.int 0))

/-- The call in the body does not count, and the conditional can be an operand. -/
theorem isTrivial_iff_isCallFree_deferring :
  Tree.readAll "(f (if x (fn (y) (f y)) 0))" = .ok [.application (.var "f") [deferring]]
    ∧ deferring.isTrivial ∧ deferring.IsCallFree
  := by
  have hread : Tree.readAll "(f (if x (fn (y) (f y)) 0))"
      = .ok [.application (.var "f") [deferring]] := by
    cbv
  have hcontains : (Tree.application (.var "f") [deferring]).Contains deferring :=
    .single (by simp [Tree.children])
  have htrivial : deferring.isTrivial := rfl
  have h := isTrivial_iff_isCallFree hread (List.mem_singleton_self _) hcontains
  exact ⟨hread, htrivial, h.1.mp htrivial⟩

end Springboard
