import Springboard.Proofs.Coinage
import Springboard.Proofs.Shape

/-!
# Parameters of emitted functions

A function of a compiled program has no parameters, one that stands for a value, or the parameters
of a function of the source with a continuation behind them. A module is refused when two parameters
of a function have one identifier, and nothing in the compilation looks for that. Main statement:
the module of a text that is compiled is refused just when the parameters of some function of the
text, together with the continuation that was drawn for it, do not have different identifiers; so
where no parameter is written like a fresh name, the functions of the text decide.
-/

namespace Springboard

open NameSource

/-! ### The functions of a tree -/

namespace Tree

mutual

/-- The parameters of each function in a tree. -/
def formals : Tree → List (List String)
  | operation _ operands => formalsAll operands
  | conditional _ test conseq alt => formals test ++ formals conseq ++ formals alt
  | abstraction params body => params :: formals body
  | definition _ params body _ => params :: formals body
  | continuation arg body => [arg] :: formals body
  | resumption k arg => formals k ++ formals arg
  | application rator rands => formals rator ++ formalsAll rands
  | entry _ params k _ inner => (params ++ [k]) :: formals inner
  | program definitions _ => formalsAll definitions
  | _ => []

/-- The parameters of each function in some trees. -/
def formalsAll : List Tree → List (List String)
  | [] => []
  | t :: ts => formals t ++ formalsAll ts

end

/-- A function in some trees is one in some of them. -/
theorem mem_formalsAll {ts : List Tree} {params : List String} :
  params ∈ formalsAll ts ↔ ∃ t ∈ ts, params ∈ t.formals
  := by
  induction ts with
  | nil => simp [formalsAll]
  | cons t ts ih => simp [formalsAll, ih]

/-- Renaming changes no parameters. -/
theorem formals_renamed {nested : Bool} {t : Tree} (h : Surface nested t) (r : Renaming) :
  (r.tree t).formals = t.formals
  := by
  have hall : ∀ {ts : List Tree} (r : Renaming),
      (∀ t ∈ ts, ∀ r : Renaming, (r.tree t).formals = t.formals) →
        formalsAll (r.trees ts) = formalsAll ts := by
    intro ts r hts
    induction ts with
    | nil => rw [Renaming.trees]
    | cons t ts ih =>
      obtain ⟨ht, hts⟩ := List.forall_mem_cons.mp hts
      rw [Renaming.trees, formalsAll, formalsAll, ht, ih hts]
  induction h generalizing r with
  | literal value => rw [Renaming.tree]
  | var x => rw [Renaming.tree, formals, formals] <;> intros <;> contradiction
  | operation _ _ ih => rw [Renaming.tree, formals, formals, hall r ih]
  | trivialConditional _ _ _ _ ihtest ihconseq ihalt =>
    rw [Renaming.tree, formals, formals, ihtest, ihconseq, ihalt]
  | seriousConditional _ _ _ ihtest ihconseq ihalt =>
    rw [Renaming.tree, formals, formals, ihtest, ihconseq, ihalt]
  | abstraction params _ ih => rw [Renaming.tree, formals, formals, ih]
  | definition name params _ _ ih => rw [Renaming.tree, formals, formals, ih]
  | application _ _ ihrator ihrands =>
    rw [Renaming.tree, formals, formals, ihrator, hall r ihrands]

mutual

/-- Suspension adds functions without parameters, and no others. -/
theorem formals_suspend :
    ∀ (t : Tree) {u : Tree}, t.suspend = .ok u →
      u.formals.filter (· != []) = t.formals.filter (· != [])
  | .literal _, u, h | .var _, u, h => by
      cases h
      rfl
  | .operation op operands, u, h => by
      simp only [suspend, Except.bind_eq_ok] at h
      obtain ⟨us, hus, h⟩ := h
      cases h
      rw [formals, formals, formalsAll_suspendAll operands hus]
  | .conditional .converted test conseq alt, u, h => by
      simp only [suspend, Except.bind_eq_ok] at h
      obtain ⟨test', htest, conseq', hconseq, alt', halt, h⟩ := h
      cases h
      simp only [formals, List.filter_append, formals_suspend test htest,
        formals_suspend conseq hconseq, formals_suspend alt halt]
  | .abstraction params body, u, h | .definition _ params body _, u, h => by
      simp only [suspend, Except.bind_eq_ok] at h
      obtain ⟨body', hbody, h⟩ := h
      cases h
      simp only [formals, delayed, List.filter_cons, formals_suspend body hbody, bne_self_eq_false,
        Bool.false_eq_true, if_false]
  | .application rator rands, u, h => by
      simp only [suspend, Except.bind_eq_ok] at h
      obtain ⟨rator', hrator, rands', hrands, h⟩ := h
      cases h
      simp only [formals, List.filter_append, formals_suspend rator hrator,
        formalsAll_suspendAll rands hrands]
  | .conditional .plain _ _ _, u, h | .conditional .trivial _ _ _, u, h
  | .conditional .serious _ _ _, u, h | .continuation _ _, u, h | .resumption _ _, u, h
  | .blank, u, h | .entry _ _ _ _ _, u, h | .program _ _, u, h | .nothing, u, h | .number _, u, h
  | .text _, u, h | .list _, u, h | .tuple _, u, h => by
      simp only [suspend] at h
      contradiction

/-- Suspension of some trees adds functions without parameters, and no others. -/
theorem formalsAll_suspendAll :
    ∀ (ts : List Tree) {us : List Tree}, suspendAll ts = .ok us →
      (formalsAll us).filter (· != []) = (formalsAll ts).filter (· != [])
  | [], us, h => by
      cases h
      rfl
  | t :: ts, us, h => by
      simp only [suspendAll, Except.bind_eq_ok] at h
      obtain ⟨u, hu, us', hus, h⟩ := h
      cases h
      simp only [formalsAll, List.filter_append, formals_suspend t hu, formalsAll_suspendAll ts hus]

end

/-! ### Threaded trees -/

/-- The functions are those of the source, each with a continuation behind its parameters, and
functions of one value, where the names of continuations and values were drawn while the counter
went from `n` to `m`. -/
structure Extended (n m : Int) (sources functions : List (List String)) : Prop where
  of_mem : ∀ params ∈ functions, ∃ i, n ≤ i ∧ i < m
    ∧ (params = [nameOf "s" i] ∨ ∃ source ∈ sources, params = source ++ [nameOf "k" i])
  exists_mem : ∀ source ∈ sources, ∃ i, n ≤ i ∧ i < m ∧ source ++ [nameOf "k" i] ∈ functions

namespace Extended

variable {l m n : Int} {sources sources' functions functions' : List (List String)}

/-- No function comes of none. -/
theorem nil : Extended n m [] [] := by
  constructor
  all_goals
    intro params h
    contradiction

/-- A function of the source is given a continuation. -/
theorem continued (params : List String) :
  Extended n (n + 1) [params] [params ++ [nameOf "k" n]]
  := by
  constructor
  · intro params' h
    cases List.mem_singleton.mp h
    exact ⟨n, le_refl n, by omega, .inr ⟨params, List.mem_singleton_self params, rfl⟩⟩
  · intro source h
    cases List.mem_singleton.mp h
    exact ⟨n, le_refl n, by omega, List.mem_singleton_self _⟩

/-- A function of one value is added. -/
theorem value : Extended n (n + 1) [] [[nameOf "s" n]] := by
  constructor
  · intro params h
    cases List.mem_singleton.mp h
    exact ⟨n, le_refl n, by omega, .inl rfl⟩
  · intro source h
    contradiction

/-- More names may have been drawn. -/
theorem mono (h : Extended m n sources functions) {l k : Int} (hl : l ≤ m) (hk : n ≤ k) :
  Extended l k sources functions
  := by
  constructor
  · intro params hparams
    obtain ⟨i, hi, hi', hcases⟩ := h.of_mem params hparams
    exact ⟨i, by omega, by omega, hcases⟩
  · intro source hsource
    obtain ⟨i, hi, hi', hmem⟩ := h.exists_mem source hsource
    exact ⟨i, by omega, by omega, hmem⟩

/-- Functions come one after the other. -/
theorem append (h : Extended l m sources functions) (h' : Extended m n sources' functions')
    (hlm : l ≤ m) (hmn : m ≤ n) :
  Extended l n (sources ++ sources') (functions ++ functions')
  := by
  constructor
  · intro params hparams
    rcases List.mem_append.mp hparams with hparams | hparams
    · obtain ⟨i, hi, hi', hcases⟩ := h.of_mem params hparams
      refine ⟨i, hi, by omega, hcases.imp_right ?_⟩
      rintro ⟨source, hsource, heq⟩
      exact ⟨source, List.mem_append_left _ hsource, heq⟩
    · obtain ⟨i, hi, hi', hcases⟩ := h'.of_mem params hparams
      refine ⟨i, by omega, hi', hcases.imp_right ?_⟩
      rintro ⟨source, hsource, heq⟩
      exact ⟨source, List.mem_append_right _ hsource, heq⟩
  · intro source hsource
    rcases List.mem_append.mp hsource with hsource | hsource
    · obtain ⟨i, hi, hi', hmem⟩ := h.exists_mem source hsource
      exact ⟨i, hi, by omega, List.mem_append_left _ hmem⟩
    · obtain ⟨i, hi, hi', hmem⟩ := h'.exists_mem source hsource
      exact ⟨i, by omega, hi', List.mem_append_right _ hmem⟩

/-- It does not matter in which order the functions stand, and whether they stand twice. -/
theorem congr (h : Extended n m sources functions)
    (hsources : ∀ params, params ∈ sources ↔ params ∈ sources')
    (hfunctions : ∀ params, params ∈ functions ↔ params ∈ functions') :
  Extended n m sources' functions'
  := by
  constructor
  · intro params hparams
    obtain ⟨i, hi, hi', hcases⟩ := h.of_mem params ((hfunctions params).mpr hparams)
    refine ⟨i, hi, hi', hcases.imp_right ?_⟩
    rintro ⟨source, hsource, heq⟩
    exact ⟨source, (hsources source).mp hsource, heq⟩
  · intro source hsource
    obtain ⟨i, hi, hi', hmem⟩ := h.exists_mem source ((hsources source).mpr hsource)
    exact ⟨i, hi, hi', (hfunctions _).mp hmem⟩

end Extended

/-- However a continuation is threaded through the tree, the functions of the result are those that
come of the functions of the tree, and those of the continuation. -/
def ExtendsFormals (ak : String) (t : Tree) : Prop :=
  ∀ k? n, ∃ functions, Extended n (threaded ak k? t n).2 t.formals functions
    ∧ ∀ params, params ∈ (threaded ak k? t n).1.formals
      ↔ params ∈ functions ∨ ∃ k ∈ k?, params ∈ k.formals

section Threaded

variable {ak : String}

/-- A value that is handed on has its functions and those of the continuation. -/
theorem mem_formals_handed (k? : Option Tree) (value : Tree) (params : List String) :
  params ∈ (handed ak k? value).formals ↔ params ∈ value.formals ∨ ∃ k ∈ k?, params ∈ k.formals
  := by
  cases k? with
  | none => simp [handed]
  | some k => simp [handed, formals, formalsAll, or_comm]

/-- Without a continuation the functions are those that come of the functions of the tree. -/
theorem ExtendsFormals.extended {t : Tree} (h : ExtendsFormals ak t) (n : Int) :
  Extended n (threaded ak none t n).2 t.formals (threaded ak none t n).1.formals
  := by
  obtain ⟨functions, hextended, hfunctions⟩ := h none n
  apply hextended.congr (fun params => Iff.rfl)
  intro params
  rw [hfunctions]
  simp

/-- The values that stand for some parts have the functions that come of the trivial parts; with
them come the functions of the values of the other parts. -/
theorem extended_threadedParts {ts : List Tree} (h : ∀ t ∈ ts, ExtendsFormals ak t) (n : Int) :
  Extended n (threadedParts ak ts n).2 (formalsAll (ts.filter isTrivial))
    (formalsAll (threadedParts ak ts n).1.1
      ++ (threadedParts ak ts n).1.2.reduceOption.map fun s => [s])
  := by
  induction ts generalizing n with
  | nil =>
    rw [threadedParts]
    exact .nil
  | cons t ts ih =>
    obtain ⟨ht, hts⟩ := List.forall_mem_cons.mp h
    rw [threadedParts]
    by_cases htrivial : t.isTrivial
    · rw [if_pos htrivial, List.filter_cons_of_pos htrivial]
      have hrest := ih hts (threaded ak none t n).2
      have hextended := (ht.extended n).append hrest (le_threaded ak none t n)
        (le_threadedParts ak ts _)
      apply hextended.congr
      · intro params
        rw [formalsAll]
      · intro params
        simp [formalsAll]
    · rw [if_neg htrivial, List.filter_cons_of_neg htrivial]
      have hextended := Extended.value.append (ih hts (n + 1)) (by omega)
        (le_threadedParts ak ts (n + 1))
      apply hextended.congr
      · intro params
        rw [List.nil_append]
      · intro params
        simp [formalsAll, formals, or_left_comm]

/-- What is computed first in front of a tree has the functions that come of the parts which are not
trivial, those of their values, and those of the tree. -/
theorem exists_extended_threadedPending {ts : List Tree} (h : ∀ t ∈ ts, ExtendsFormals ak t)
    (n m : Int) (result : Tree) :
  ∃ functions, Extended m (threadedPending ak ts (threadedParts ak ts n).1.2 result m).2
      (formalsAll (ts.filter fun t => !t.isTrivial)) functions
    ∧ ∀ params, params ∈ (threadedPending ak ts (threadedParts ak ts n).1.2 result m).1.formals
      ↔ params ∈ functions ∨ params ∈ (threadedParts ak ts n).1.2.reduceOption.map (fun s => [s])
        ∨ params ∈ result.formals
  := by
  induction ts generalizing n with
  | nil =>
    use []
    rw [threadedParts, threadedPending]
    · exact ⟨.nil, by simp⟩
    all_goals intros; contradiction
  | cons t ts ih =>
    obtain ⟨ht, hts⟩ := List.forall_mem_cons.mp h
    rw [threadedParts]
    by_cases htrivial : t.isTrivial
    · rw [if_pos htrivial, threadedPending, List.filter_cons_of_neg (by simp [htrivial])]
      obtain ⟨functions, hextended, hfunctions⟩ := ih hts (threaded ak none t n).2
      use functions, hextended
      simpa using hfunctions
    · rw [if_neg htrivial, threadedPending, List.filter_cons_of_pos (by simp [htrivial])]
      obtain ⟨functions, hextended, hfunctions⟩ := ih hts (n + 1)
      generalize hrest : threadedPending ak ts (threadedParts ak ts (n + 1)).1.2 result m = rest
        at hextended hfunctions ⊢
      obtain ⟨functions', hextended', hfunctions'⟩ :=
        ht (some (abstraction [nameOf "s" n] rest.1)) rest.2
      have hle : m ≤ rest.2 := hrest ▸ le_threadedPending ak ts _ result m
      use functions ++ functions'
      constructor
      · apply (hextended.append hextended' hle (le_threaded ak _ t rest.2)).congr
        · intro params
          rw [formalsAll, List.mem_append, List.mem_append, or_comm]
        · intro params
          rfl
      · intro params
        have hfurther : (∃ k ∈ some (abstraction [nameOf "s" n] rest.1), params ∈ k.formals)
            ↔ params = [nameOf "s" n] ∨ params ∈ rest.1.formals := by
          simp [formals]
        rw [hfunctions', hfurther, hfunctions, List.mem_append, List.reduceOption_cons_of_some,
          List.map_cons, List.mem_cons]
        tauto

/-- A tree that is put together from the values of parts, with what is computed first in front of
it, has the functions that come of the parts, and those that it has beside the values. -/
theorem exists_extended_of_parts {ts : List Tree} (h : ∀ t ∈ ts, ExtendsFormals ak t) {n : Int}
    {result : Tree} {further : List String → Prop}
    (hresult : ∀ params, params ∈ result.formals
      ↔ params ∈ formalsAll (threadedParts ak ts n).1.1 ∨ further params) :
  ∃ functions, Extended n
      (threadedPending ak ts (threadedParts ak ts n).1.2 result (threadedParts ak ts n).2).2
      (formalsAll ts) functions
    ∧ ∀ params, params ∈ (threadedPending ak ts (threadedParts ak ts n).1.2 result
        (threadedParts ak ts n).2).1.formals ↔ params ∈ functions ∨ further params
  := by
  obtain ⟨functions, hextended, hfunctions⟩ :=
    exists_extended_threadedPending h n (threadedParts ak ts n).2 result
  use formalsAll (threadedParts ak ts n).1.1
    ++ (threadedParts ak ts n).1.2.reduceOption.map (fun s => [s]) ++ functions
  constructor
  · have hle := le_threadedParts ak ts n
    apply ((extended_threadedParts h n).append hextended hle (le_threadedPending ak ts _ _ _)).congr
    · intro params
      simp only [List.mem_append, mem_formalsAll, List.mem_filter, Bool.not_eq_true']
      constructor
      · rintro (⟨t, ht, hparams⟩ | ⟨t, ht, hparams⟩)
        all_goals exact ⟨t, ht.1, hparams⟩
      · rintro ⟨t, ht, hparams⟩
        cases htrivial : t.isTrivial with
        | true => exact .inl ⟨t, ⟨ht, htrivial⟩, hparams⟩
        | false => exact .inr ⟨t, ⟨ht, htrivial⟩, hparams⟩
    · intro params
      rfl
  · intro params
    rw [hfunctions, hresult, List.mem_append, List.mem_append]
    tauto

/-- The functions of a threaded surface tree are those that come of its functions. -/
theorem extendsFormals_of_surface {t : Tree} (ht : Surface false t) : ExtendsFormals ak t := by
  induction ht with
  | literal value =>
    intro k? n
    rw [threaded]
    exact ⟨[], .nil, mem_formals_handed k? (.literal value)⟩
  | var x =>
    intro k? n
    rw [threaded]
    exact ⟨[], .nil, mem_formals_handed k? (.var x)⟩
  | @operation op operands hcount hoperands ih =>
    intro k? n
    rw [threaded, formals]
    apply exists_extended_of_parts ih
    intro params
    rw [mem_formals_handed, formals]
  | @trivialConditional test conseq alt htrivial htest hconseq halt ihtest ihconseq ihalt =>
    intro k? n
    rw [threaded]
    refine ⟨_, ?_, mem_formals_handed k? _⟩
    rw [formals, formals]
    have hextended := (ihtest.extended n).append (ihconseq.extended _) (le_threaded ak none test n)
      (le_threaded ak none conseq _)
    apply hextended.append (ihalt.extended _)
    · apply (le_threaded ak none test n).trans
      apply le_threaded
    · apply le_threaded
  | @seriousConditional test conseq alt htest hconseq halt ihtest ihconseq ihalt =>
    intro k? n
    rw [threaded_conditional]
    obtain ⟨inConseq, hconseq, hinConseq⟩ := ihconseq k? n
    obtain ⟨inAlt, halt, hinAlt⟩ := ihalt k? (threaded ak k? conseq n).2
    have hle := le_threaded ak k? conseq n
    have hle' := le_threaded ak k? alt (threaded ak k? conseq n).2
    generalize threaded ak k? alt (threaded ak k? conseq n).2 = alt' at halt hinAlt hle' ⊢
    have hparts := @exists_extended_of_parts ak [test] (List.forall_mem_singleton.mpr ihtest) alt'.2
      (chosen (threaded ak k? conseq n).1 alt'.1 (threadedParts ak [test] alt'.2).1.1)
      (fun params => params ∈ (threaded ak k? conseq n).1.formals ∨ params ∈ alt'.1.formals) ?_
    · obtain ⟨inTest, htest, hinTest⟩ := hparts
      use inConseq ++ inAlt ++ inTest
      constructor
      · refine ((hconseq.append halt hle hle').append htest (hle.trans hle') ?_).congr ?_ ?_
        · apply (le_threadedParts ak [test] alt'.2).trans
          apply le_threadedPending
        · intro params
          rw [formals, formalsAll, formalsAll, List.append_nil]
          simp only [List.mem_append]
          tauto
        · intro params
          rfl
      · intro params
        rw [hinTest, hinConseq, hinAlt, List.mem_append, List.mem_append]
        tauto
    · intro params
      obtain ⟨test', htest'⟩ := exists_threadedParts_singleton ak test alt'.2
      rw [htest', chosen, formals]
      simp [formalsAll]
  | @abstraction params body hbody ih =>
    intro k? n
    rw [threaded]
    obtain ⟨functions, hextended, hfunctions⟩ := ih (some (var (nameOf "k" n))) (n + 1)
    use [params ++ [nameOf "k" n]] ++ functions
    constructor
    · apply (Extended.continued params).append hextended
      · omega
      · apply le_threaded
    · intro params'
      rw [mem_formals_handed, formals, List.mem_cons, hfunctions]
      simp [formals]
  | definition name params hnested _ _ => contradiction
  | @application rator rands hrator hrands ihrator ihrands =>
    intro k? n
    rw [threaded_application, formals]
    apply exists_extended_of_parts (List.forall_mem_cons.mpr ⟨ihrator, ihrands⟩)
    intro params
    obtain ⟨rator', rands', hparts⟩ := exists_threadedParts_cons ak rator rands n
    rw [hparts, applied, formals, formalsAll]
    cases k? with
    | none => simp
    | some k => simp [mem_formalsAll, or_and_right, exists_or, or_assoc]

end Threaded

end Tree

/-! ### Entries -/

/-- The functions of a converted definition are those that come of the definition. -/
theorem Definition.extended_threaded (ak : String) {d : Definition} (hd : Surface false d.body)
    (n : Int) :
  Tree.Extended n (Tree.threadedBody ak d.name d.params d.body n).2 d.toTree.formals
    (d.threaded ak n).formals
  := by
  have hlt := lt_threadedBody ak d n
  have hsurface := Renaming.surface_tree hd
    (Renaming.under (some (d.name, nameOf d.name n)) d.params)
  obtain ⟨functions, hbody, hfunctions⟩ := @Tree.extendsFormals_of_surface ak _ hsurface
    (some (.var (nameOf "k" (n + 1)))) (n + 2)
  rw [Tree.formals_renamed hd] at hbody
  have hfirst := @Tree.Extended.continued (n + 1) d.params
  rw [show n + 1 + 1 = n + 2 by omega] at hfirst
  have hrest := hfirst.append hbody (by omega) (by rw [Tree.threadedBody] at hlt; omega)
  apply (hrest.mono (by omega : n ≤ n + 1) (le_refl _)).congr
  · intro params
    rfl
  · intro params
    rw [threaded, Tree.formals, Tree.threadedBody, List.singleton_append, List.mem_cons,
      List.mem_cons, hfunctions]
    simp [Tree.formals, threadedParams]

/-- The functions of converted definitions are those that come of the definitions. -/
theorem extended_numbered (ak : String) {ds : List Definition}
    (hds : ∀ d ∈ ds, Surface false d.body) (n : Int) :
  Tree.Extended n (Definition.numberAfter ak ds n) (Tree.formalsAll (ds.map Definition.toTree))
    (Tree.formalsAll ((Definition.numbered ak ds n).map fun p => p.1.threaded ak p.2))
  := by
  induction ds generalizing n with
  | nil => exact .nil
  | cons d ds ih =>
    obtain ⟨hd, hds⟩ := List.forall_mem_cons.mp hds
    have hlt := d.lt_threadedBody ak n
    rw [Definition.numbered, Definition.numberAfter, List.map_cons, List.map_cons, Tree.formalsAll,
      Tree.formalsAll]
    apply (Definition.extended_threaded ak hd n).append (ih hds _)
    · omega
    · apply Definition.le_numberAfter

/-- The entry of a converted definition has, beside functions without parameters, the functions of
the definition. -/
theorem formals_toEntry {ak : String} {p : Definition × Int} {t : Tree}
    (h : (p.1.threaded ak p.2).suspend = .ok t) (start f : Int) :
  ∃ e, t.toEntry ⟨start, f⟩ = .ok (e, ⟨start, f + 1⟩)
    ∧ ∀ params ≠ [], params ∈ e.formals ↔ params ∈ (p.1.threaded ak p.2).formals
  := by
  have hformals := Tree.formals_suspend _ h
  simp only [Definition.threaded, Tree.suspend, Except.bind_eq_ok] at h
  obtain ⟨body, hbody, h⟩ := h
  cases h
  refine ⟨_, Machine.toEntry_delayed _ _ _ _ _ start f, ?_⟩
  intro params hparams
  have hmem := congrArg (params ∈ ·) hformals
  simp only [List.mem_filter, bne_iff_ne, hparams, ne_eq, not_false_eq_true, and_true,
    eq_iff_iff] at hmem
  rw [← hmem]
  simp [Tree.formals, Definition.threadedParams]

/-- The entries of converted definitions have, beside functions without parameters, the functions of
the definitions. -/
theorem mem_formalsAll_toEntries {ak : String} {ps : List (Definition × Int)} {ts es : List Tree}
    {start f : Int} {names : NameSource}
    (hts : Tree.suspendAll (ps.map fun p => p.1.threaded ak p.2) = .ok ts)
    (hes : Tree.toEntries ts ⟨start, f⟩ = .ok (es, names)) {params : List String}
    (hparams : params ≠ []) :
  params ∈ Tree.formalsAll es ↔ params ∈ Tree.formalsAll (ps.map fun p => p.1.threaded ak p.2)
  := by
  induction ps generalizing ts es f with
  | nil =>
    cases hts
    cases hes
    rfl
  | cons p ps ih =>
    simp only [List.map_cons, Tree.suspendAll, Except.bind_eq_ok] at hts
    obtain ⟨t, ht, ts, hts, h⟩ := hts
    cases h
    obtain ⟨e, he, hformals⟩ := formals_toEntry ht start f
    rw [Tree.toEntries, Tree.naming_bind he, Tree.naming_bind_eq_ok] at hes
    obtain ⟨es, names', hes, h⟩ := hes
    cases h
    rw [List.map_cons, Tree.formalsAll, Tree.formalsAll, List.mem_append, List.mem_append,
      hformals params hparams, ih hts hes]

/-! ### Modules -/

/-- The parameters of each function have different identifiers. -/
def AreProper (functions : List (List String)) : Prop :=
  ∀ params ∈ functions, (params.map mangle).Nodup

/-- Functions are proper together when they are one by one. -/
theorem areProper_append {functions functions' : List (List String)} :
  AreProper (functions ++ functions') ↔ AreProper functions ∧ AreProper functions'
  := by
  apply List.forall_mem_append

/-- A function is proper when its parameters have different identifiers. -/
theorem areProper_cons {params : List String} {functions : List (List String)} :
  AreProper (params :: functions) ↔ (params.map mangle).Nodup ∧ AreProper functions
  := by
  apply List.forall_mem_cons

/-- Functions without parameters are proper. -/
theorem areProper_filter {functions : List (List String)} :
  AreProper (functions.filter (· != [])) ↔ AreProper functions
  := by
  constructor
  · intro h params hparams
    by_cases hnil : params = []
    · rw [hnil]
      exact .nil
    · apply h
      rw [List.mem_filter, bne_iff_ne]
      exact ⟨hparams, hnil⟩
  · intro h params hparams
    apply h params (List.mem_of_mem_filter hparams)

/-- If functions come of functions whose parameters are not written like fresh names, all are proper
just when the latter are. -/
theorem Tree.Extended.areProper_iff {n m : Int} {sources functions : List (List String)}
    (h : Extended n m sources functions) (hn : 0 ≤ n)
    (hsources : ∀ source ∈ sources, ∀ x ∈ source, ¬ isNumbered (mangle x)) :
  AreProper functions ↔ AreProper sources
  := by
  constructor
  · intro hproper source hsource
    obtain ⟨i, -, -, hmem⟩ := h.exists_mem source hsource
    have hnodup := hproper _ hmem
    rw [List.map_append] at hnodup
    apply hnodup.of_append_left
  · intro hproper params hparams
    obtain ⟨i, hi, -, rfl | ⟨source, hsource, rfl⟩⟩ := h.of_mem params hparams
    · apply List.nodup_singleton
    · rw [List.map_append, List.nodup_append]
      refine ⟨hproper source hsource, List.nodup_singleton _, ?_⟩
      rintro ident hident ident' hident' rfl
      obtain ⟨x, hx, rfl⟩ := List.mem_map.mp hident
      apply hsources source hsource x hx
      rw [List.mem_singleton.mp hident']
      apply isNumbered_mangle_nameOf
      omega

namespace Machine

/-- A chain of an operator is proper when its operands are. -/
theorem isProper_chain {op : BinaryOp} {codes : List Code} {code : Code}
    (h : Code.chain op codes = some code) :
  code.isProper = Code.areProper codes
  := by
  cases codes with
  | nil => contradiction
  | cons first rest =>
    cases h
    rw [Code.areProper]
    induction rest generalizing first with
    | nil => rw [List.foldl_nil, Code.areProper, Bool.and_true]
    | cons next rest ih =>
      rw [List.foldl_cons, ih, Code.isProper, Code.areProper, Bool.and_assoc]

/-- The expression of an operator is proper when its operands are. -/
theorem isProper_ofOperation {op : Operator} {codes : List Code} {code : Code}
    (h : Code.ofOperation op codes = some code) :
  code.isProper = Code.areProper codes
  := by
  unfold Code.ofOperation at h
  split at h
  case h_1 => apply isProper_chain h
  case h_3 => apply isProper_chain h
  case h_7 => contradiction
  all_goals
    cases h
    simp only [Code.isProper, Code.areProper, Bool.and_true]

/-- Trees that have an expression each have expressions together, which are proper when the
functions of the trees are. -/
theorem exists_codes {ts : List Tree}
    (h : ∀ t ∈ ts, ∃ code, Code.ofTree? t = some code ∧ (code.isProper ↔ AreProper t.formals)) :
  ∃ codes, Code.ofTrees? ts = some codes ∧ codes.length = ts.length
    ∧ (Code.areProper codes ↔ AreProper (Tree.formalsAll ts))
  := by
  induction ts with
  | nil => exact ⟨[], rfl, rfl, by simp [Code.areProper, AreProper, Tree.formalsAll]⟩
  | cons t ts ih =>
    obtain ⟨⟨code, hcode, hproper⟩, hts⟩ := List.forall_mem_cons.mp h
    obtain ⟨codes, hcodes, hlength, hareProper⟩ := ih hts
    refine ⟨code :: codes, ?_, congrArg (· + 1) hlength, ?_⟩
    · rw [Code.ofTrees?, hcode, hcodes]
      rfl
    · rw [Code.areProper, Bool.and_eq_true, Tree.formalsAll, areProper_append, hproper, hareProper]

/-- Compiled code has an expression, which is proper when the functions of the code are. -/
theorem exists_code {place : Place} {t : Tree} (h : Compiled place t) :
  ∃ code, Code.ofTree? t = some code ∧ (code.isProper ↔ AreProper t.formals)
  := by
  induction h with
  | literal value => exact ⟨_, rfl, by simp [Code.isProper, AreProper, Tree.formals]⟩
  | var x => exact ⟨_, rfl, by simp [Code.isProper, AreProper, Tree.formals]⟩
  | operation hcount _ ih =>
    obtain ⟨codes, hcodes, hlength, hproper⟩ := exists_codes ih
    rw [← hlength] at hcount
    obtain ⟨code, hcode⟩ := exists_ofOperation hcount
    refine ⟨code, ?_, ?_⟩
    · rw [Code.ofTree?, hcodes]
      exact hcode
    · rw [isProper_ofOperation hcode, hproper, Tree.formals]
  | choice _ _ _ ihtest ihconseq ihalt | branch _ _ _ ihtest ihconseq ihalt =>
    obtain ⟨test, htest, hproper⟩ := ihtest
    obtain ⟨conseq, hconseq, hproper'⟩ := ihconseq
    obtain ⟨alt, halt, hproper''⟩ := ihalt
    refine ⟨.choose test conseq alt, ?_, ?_⟩
    · rw [Code.ofTree?, htest, hconseq, halt]
      rfl
    · rw [Code.isProper, Bool.and_eq_true, Bool.and_eq_true, Tree.formals, areProper_append,
        areProper_append, hproper, hproper', hproper'']
  | @function params body _ _ ih =>
    obtain ⟨code, hcode, hproper⟩ := ih
    refine ⟨.lambda (params.map mangle) (.lambda [] code), ?_, ?_⟩
    · rw [Tree.delayed, Code.ofTree?, Code.ofTree?, hcode]
      rfl
    · simp [Code.isProper, Tree.delayed, Tree.formals, areProper_cons, hproper]
  | call _ _ ihrator ihrands =>
    obtain ⟨rator, hrator, hproper⟩ := ihrator
    obtain ⟨rands, hrands, -, hareProper⟩ := exists_codes ihrands
    refine ⟨.call rator rands, ?_, ?_⟩
    · rw [Code.ofTree?, hrator, hrands]
      rfl
    · rw [Code.isProper, Bool.and_eq_true, Tree.formals, areProper_append, hproper, hareProper]

/-- The entry of a definition is written out, and is proper when its functions are. -/
theorem exists_entry_of_isEntryOf {d : Definition} {t : Tree} (h : IsEntryOf d t) (n : Int) :
  ∃ e, Entry.ofTree? (helpersAt n) t = some e ∧ (e.isProper ↔ AreProper t.formals)
  := by
  obtain ⟨k, flag, own, body, hbody, rfl⟩ := h
  obtain ⟨code, hcode, hproper⟩ := exists_code hbody
  have hdelayed : Code.ofTree? body.delayed = some (.lambda [] code) := by
    rw [Tree.delayed, Code.ofTree?, hcode]
    rfl
  rw [Entry.ofTree?, hdelayed]
  refine ⟨_, rfl, ?_⟩
  simp [Entry.isProper, Code.isProper, Tree.delayed, Tree.formals, areProper_cons, hproper]

/-- Entries of definitions are written out together, and are proper when their functions are. -/
theorem exists_entries_of_isEntryOf {Ds : List Definition} {es : List Tree}
    (h : List.Forall₂ IsEntryOf Ds es) (n : Int) :
  ∃ entries, es.mapM (Entry.ofTree? (helpersAt n)) = some entries
    ∧ (entries.all Entry.isProper ↔ AreProper (Tree.formalsAll es))
  := by
  induction h with
  | nil => exact ⟨[], rfl, by simp [AreProper, Tree.formalsAll]⟩
  | cons hfirst _ ih =>
    obtain ⟨e, he, hproper⟩ := exists_entry_of_isEntryOf hfirst n
    obtain ⟨entries, hentries, hareProper⟩ := ih
    refine ⟨e :: entries, ?_, ?_⟩
    · rw [List.mapM_cons, he, hentries]
      rfl
    · rw [List.all_cons, Bool.and_eq_true, Tree.formalsAll, areProper_append, hproper, hareProper]

/-- A program of entries has a module just when its functions are proper, and otherwise it is
refused for a parameter that is repeated. -/
theorem ofProgram_cases {Ds : List Definition} {es : List Tree} (h : List.Forall₂ IsEntryOf Ds es)
    (n : Int) :
  (AreProper (Tree.programOf es (helpersAt n)).formals
      ∧ ∃ m, Module.ofProgram (Tree.programOf es (helpersAt n)) = .ok m)
    ∨ (¬ AreProper (Tree.programOf es (helpersAt n)).formals
      ∧ Module.ofProgram (Tree.programOf es (helpersAt n)) = .error (.fault .repeatedParameter))
  := by
  obtain ⟨entries, hentries, hproper⟩ := exists_entries_of_isEntryOf h n
  have hmodule : ∃ m, Module.ofProgram? (Tree.programOf es (helpersAt n)) = some m
      ∧ m.entries = entries := by
    rw [Tree.programOf, sorted_helpersAt, Module.ofProgram?, importsOf?_helpersAt, hentries]
    exact ⟨_, rfl, rfl⟩
  obtain ⟨m, hm, rfl⟩ := hmodule
  rw [Module.ofProgram, hm]
  by_cases hm : m.isProper
  · left
    exact ⟨hproper.mp hm, m, if_pos hm⟩
  · right
    exact ⟨fun h => hm (hproper.mpr h), if_neg hm⟩

end Machine

/-! ### Texts -/

/-- The functions of some forms. A form that is no definition is one without parameters. -/
def functionsOf (entry : String) (forms : List Tree) : List (List String) :=
  Tree.formalsAll (forms.map fun form => (Definition.ofForm entry form).toTree)

/-- The functions with parameters in the program of a text are those that come of the functions of
the text. -/
theorem extended_of_compileText
    {entry : String} {runtime : Tree} {text : String} {forms : List Tree}
    (hread : Tree.readAll text = .ok forms) {names : NameSource} {notes : List Note}
    {program : Tree} {p : Progress}
    (h : compileText ⟨.text entry, runtime⟩ text ⟨names, notes⟩ = .ok program p) :
  Tree.Extended names.next p.names.next (functionsOf entry forms)
    (program.formals.filter (· != []))
  := by
  obtain ⟨start, n⟩ := names
  obtain ⟨hsurface, -, ts, hts, hprogram⟩ := stages_of_run rfl hread h
  rw [Tree.toProgram, Tree.naming_bind_eq_ok] at hprogram
  obtain ⟨es, names', hes, hprogram⟩ := hprogram
  cases hprogram
  obtain ⟨flags, -, hle, -⟩ := exists_flags hts hes
  have hextended := extended_numbered (applyKName n) hsurface (n + 4)
  have hnonempty : [] ∉ Tree.formalsAll
      ((Definition.placed (forms.map (Definition.ofForm entry)) n).map
        fun p => p.1.threaded (applyKName n) p.2) := by
    intro hmem
    obtain ⟨i, -, -, h | ⟨source, -, h⟩⟩ := hextended.of_mem [] hmem
    · contradiction
    · exact List.append_ne_nil_of_right_ne_nil source (List.cons_ne_nil _ _) h.symm
  apply (hextended.mono (by omega : n ≤ n + 4) hle).congr
  · intro params
    rw [functionsOf, List.map_map]
    rfl
  · intro params
    rw [List.mem_filter, bne_iff_ne]
    by_cases hparams : params = []
    · subst hparams
      exact iff_of_false hnonempty (fun h => h.2 rfl)
    · rw [Tree.programOf, Tree.formals, mem_formalsAll_toEntries hts hes hparams]
      exact (and_iff_left hparams).symm

/-- Where the source of a module is emitted, the text is compiled with the same names. -/
theorem compileText_of_source
    {params : Parameters} {text emitted : String} {p p' : Progress}
    (h : compileToSource params text p = .ok emitted p') :
  ∃ program, compileText params text p = .ok program p'
  := by
  simp only [compileToSource, bind_eq_ok, attempt_eq_ok] at h
  obtain ⟨program, p₁, hprogram, source, p₂, ⟨-, rfl⟩, -, rfl⟩ := h
  exact ⟨program, hprogram⟩

/-- A definition whose two parameters share an identifier. -/
def sharedParamText : String :=
  "(defn f (a-b a_b) a-b)"

end Springboard
