import Springboard.Proofs.Agreement

/-!
# Functions are entered in the same order

The functions of a program are told by their places. Conversion gives each of them a continuation
with a number of its own, so the parameters of a compiled function tell where in the program it comes
from. Main statement: when a program is evaluated, and when it is compiled and run from its entry,
the same functions of the source are entered, in the same order and equally often. So the parts that
have to be computed first are computed once each and from the left, although they are threaded
inside out, and of a conditional only one branch is run, although both have the continuation. The
names of the program must keep apart from the drawn ones as identifiers too, or else a value that was
waited for can take the place of a function.
-/

namespace Springboard

open NameSource Evaluation

/-! ### The functions of a program -/

section Table

variable {ak : String} {Es : List Definition} {e : Tree} {n : Int}

/-- Converting a definition uses up the numbers of its name, of its continuation and of its body. -/
theorem Definition.snd_threadedBody (ak : String) (d : Definition) (n : Int) :
  (Tree.threadedBody ak d.name d.params d.body n).2 = n + 2 + Tree.draws d.body
  := by
  exact Tree.snd_threaded ak _ _ d.body (n + 2)

/-- The functions of definitions, and of what comes behind them. -/
theorem Definition.formFunctions_append (ak : String) (Es : List Definition) (i : Nat) (n : Int)
    (forms : List Tree) :
  Tree.formFunctions i n (Es.map toTree ++ forms) = Tree.formFunctions i n (Es.map toTree)
    ++ Tree.formFunctions (i + Es.length) (numberAfter ak Es n) forms
  := by
  induction Es generalizing i n with
  | nil => rfl
  | cons d Es ih =>
    rw [List.map_cons, List.cons_append, toTree, Tree.formFunctions, Tree.formFunctions, numberAfter,
      ih, snd_threadedBody, List.cons_append, List.append_assoc, List.length_cons, Nat.add_assoc,
      Nat.add_comm 1]

/-- The functions of definitions have numbers of their own, among those that converting the
definitions uses up. -/
theorem Definition.areNumbered_formFunctions (ak : String) (Es : List Definition) (i : Nat)
    (n : Int) :
  Tree.AreNumbered (fun j => n < j ∧ j < numberAfter ak Es n)
    (Tree.formFunctions i n (Es.map toTree))
  := by
  induction Es generalizing i n with
  | nil => exact .nil
  | cons d Es ih =>
    rw [List.map_cons, toTree, Tree.formFunctions, numberAfter, snd_threadedBody]
    have hbody := Tree.areNumbered_functions [i, 0] (n + 2) d.body
    have hrest := ih (i + 1) (n + 2 + Tree.draws d.body)
    have hdraws := Tree.draws_nonneg d.body
    have hafter := le_numberAfter ak Es (n + 2 + Tree.draws d.body)
    apply ((hbody.append hrest _).cons _ [i]).mono
    all_goals
      intro j
      omega

/-- The functions of a program are those of its definitions and those of its expression. -/
theorem Definition.formFunctions_closedBy (Es : List Definition) (he : e.isDefinition = false)
    (n : Int) :
  Tree.formFunctions 0 (n + 4) (Es.map toTree ++ [e])
    = Tree.formFunctions 0 (n + 4) (Es.map toTree)
      ++ Tree.functions [Es.length] ((last Es e n).2 + 2) e
  := by
  rw [formFunctions_append (applyKName n), Nat.zero_add, Tree.formFunctions, Tree.formFunctions,
    List.append_nil]
  · rfl
  · rintro name params body own rfl
    contradiction

/-- The functions of a program have numbers of their own, and that of its entry is none of them. -/
theorem Definition.areNumbered_closedBy (Es : List Definition) (he : e.isDefinition = false)
    (n : Int) :
  Tree.AreNumbered (fun j => n + 4 < j ∧ j ≠ (last Es e n).2 + 1)
    (Tree.formFunctions 0 (n + 4) (Es.map toTree ++ [e]))
  := by
  rw [formFunctions_closedBy Es he]
  have hdefinitions := areNumbered_formFunctions (applyKName n) Es 0 (n + 4)
  have hexpression := Tree.areNumbered_functions [Es.length] ((last Es e n).2 + 2) e
  have hafter : n + 4 ≤ (last Es e n).2 := le_numberAfter (applyKName n) Es (n + 4)
  have hlast : numberAfter (applyKName n) Es (n + 4) = (last Es e n).2 := rfl
  apply (hdefinitions.append hexpression _).mono
  all_goals
    intro j
    omega

end Table

/-! ### Definitions that keep account -/

namespace Evaluation

/-- The survey that knows the functions of a list, with the numbers of their continuations. -/
def Survey.ofFunctions (fs : List (Int × Site)) : Survey where
  path n p := (n, p) ∈ fs
  allows sites id body n :=
    ∃ p, sites[id]? = some p ∧ (n, p) ∈ fs ∧ ∀ f ∈ Tree.functions (p ++ [0]) (n + 1) body, f ∈ fs
  mono := by
    rintro sites _ id body n ⟨more, rfl⟩ ⟨p, hp, h⟩
    have hlt : id < sites.length := (List.getElem?_eq_some_iff.mp hp).1
    exact ⟨p, (List.getElem?_append_left hlt).trans hp, h⟩
  enter := by
    rintro sites id body n ⟨p, hp, h⟩
    rw [hp]
    exact h
  make := by
    intro sites p body n hn hbody
    exact ⟨p, List.getElem?_concat_length, hn, hbody⟩

/-- A definition gives its name the closure of its body, made where the definition stands. -/
theorem evalAt_definition
    (rule : Rule) (call : Value → List Value → Accounting Value) (p : Site) (env : Env)
    (name : String) (params : List String) (body : Tree) (own : Option String) (a : Account) :
  evalAt rule call p env (.definition name params body own) a
    = .ok (.closure a.sites.length name params body env)
      ⟨(a.state.define name (.closure a.sites.length name params body env)).globals,
        a.sites ++ [p], a.entered⟩
  := by
  rw [evalAt]
  rfl

/-- Evaluating definitions enters no function. A name that they bind is bound to the function of its
last definition, which was made where that definition stands. -/
theorem evalSequenceAt_toTree
    (rule : Rule) (fuel : Nat) (ak : String) {fs : List (Int × Site)} (Es : List Definition)
    (i : Nat) (n : Int) (a : Account)
    (hfs : ∀ f ∈ Tree.formFunctions i n (Es.map Definition.toTree), f ∈ fs) :
  ∃ vs a', evalSequenceAt rule fuel i (Es.map Definition.toTree) a = .ok vs a'
    ∧ a'.entered = a.entered ∧ a.sites <+: a'.sites
    ∧ (∀ x, Bound definedValue a.globals a'.globals (Definition.numbered ak Es n) x)
    ∧ ∀ {x q id}, Definition.latest x (Definition.numbered ak Es n) = some q →
      a'.globals.lookup x = some (definedValue q id) →
        (Survey.ofFunctions fs).allows a'.sites id q.1.body (q.2 + 1)
  := by
  induction Es generalizing i n a with
  | nil => exact ⟨[], a, rfl, rfl, List.prefix_rfl, fun x => rfl, fun h => by contradiction⟩
  | cons d Es ih =>
    rw [List.map_cons, Definition.toTree, Tree.formFunctions, List.forall_mem_cons,
      List.forall_mem_append] at hfs
    obtain ⟨hd, hbody, hrest⟩ := hfs
    rw [← Definition.snd_threadedBody ak d n] at hrest
    obtain ⟨a₁, hfirst, hlookup, hmade, hentered₁⟩ : ∃ a₁, evalAt rule (callAt rule fuel) [i] []
        d.toTree a = .ok (definedValue (d, n) a.sites.length) a₁
        ∧ (∀ x, a₁.globals.lookup x = if x = d.name
          then some (definedValue (d, n) a.sites.length) else a.globals.lookup x)
        ∧ a₁.sites = a.sites ++ [[i]] ∧ a₁.entered = a.entered :=
      ⟨_, evalAt_definition .., fun x => lookup_define a.state _ _ x, rfl, rfl⟩
    obtain ⟨vs, a', hvs, hentered, hsites, hbound, hplace⟩ := ih (i + 1) _ a₁ hrest
    refine ⟨definedValue (d, n) a.sites.length :: vs, a', ?_, hentered.trans hentered₁, ?_, ?_, ?_⟩
    · rw [List.map_cons, evalSequenceAt, bind_of_ok hfirst]
      exact bind_of_ok hvs
    · rw [hmade] at hsites
      exact (List.prefix_append _ _).trans hsites
    · intro x
      apply (hbound x).cons
      rw [hlookup]
      by_cases hname : d.name = x
      · rw [if_pos hname, if_pos hname.symm]
        exact ⟨_, rfl⟩
      · rw [if_neg hname, if_neg (Ne.symm hname)]
    · intro x q id hq hid
      rw [Definition.numbered, Definition.latest_cons] at hq
      cases hlatest : Definition.latest x (Definition.numbered ak Es
          (Tree.threadedBody ak d.name d.params d.body n).2) with
      | some q' =>
        rw [hlatest, Option.some_or] at hq
        cases hq
        exact hplace hlatest hid
      | none =>
        -- no later definition of the name, so it has the function that was made just now
        rw [hlatest, Option.none_or, Option.ite_none_right_eq_some] at hq
        obtain ⟨hname, hq⟩ := hq
        cases hq
        have hkept := hbound x
        rw [Bound, hlatest] at hkept
        rw [hkept, hlookup, if_pos hname.symm] at hid
        cases hid
        rw [hmade] at hsites
        rw [show n + 2 = n + 1 + 1 by omega] at hbody
        exact (Survey.ofFunctions fs).mono hsites ((Survey.ofFunctions fs).make hd hbody)

/-- The values of some forms at top level and of one more behind them. -/
theorem evalSequenceAt_append
    {rule : Rule} {fuel i : Nat} {ts : List Tree} {e : Tree} {a a' : Account} {ws : List Value}
    (h : evalSequenceAt rule fuel i (ts ++ [e]) a = .ok ws a') :
  ∃ vs a₁ v, ws = vs ++ [v] ∧ evalSequenceAt rule fuel i ts a = .ok vs a₁
    ∧ evalAt rule (callAt rule fuel) [i + ts.length] [] e a₁ = .ok v a'
  := by
  induction ts generalizing i a ws with
  | nil =>
    rw [List.nil_append, evalSequenceAt, bind_eq_ok] at h
    obtain ⟨v, a₁, hv, h⟩ := h
    obtain ⟨rfl, rfl⟩ := pure_eq_ok.mp h
    exact ⟨[], a, v, rfl, rfl, hv⟩
  | cons t ts ih =>
    rw [List.cons_append, evalSequenceAt, bind_eq_ok] at h
    obtain ⟨u, a₁, hu, h⟩ := h
    obtain ⟨us, a₂, hus, h⟩ := bind_eq_ok.mp h
    obtain ⟨rfl, rfl⟩ := pure_eq_ok.mp h
    obtain ⟨vs, a₃, v, rfl, hvs, hv⟩ := ih hus
    refine ⟨u :: vs, a₃, v, rfl, ?_, ?_⟩
    · rw [evalSequenceAt, bind_of_ok hu, bind_of_ok hvs]
      rfl
    · rw [List.length_cons, Nat.add_comm ts.length, ← Nat.add_assoc]
      exact hv

/-- The call of the identity cannot be followed further. -/
theorem rests_identityValue (id : Nat) (v : Value) : Rests (identityValue id, [v]) := by
  intro s entered target' s' h
  cases h with
  | refl => rfl
  | step hlength haim h => exact absurd haim throw_ne_ok

end Evaluation

/-! ### What the parameters tell -/

/-- Where the function of a program comes from that has been entered, as its last parameter tells;
`n` is the number from which the program was converted. -/
def siteOf (n : Int) (forms : List Tree) (params : List String) : Option Site :=
  params.getLast?.bind fun k =>
    ((Tree.formFunctions 0 (n + 4) forms).find? fun f => nameOf "k" f.1 == k).map Prod.snd

/-- What is found is a function of the program. -/
theorem isFunction_of_siteOf {n : Int} {forms : List Tree} {params : List String} {p : Site}
    (h : siteOf n forms params = some p) :
  ∃ t, Tree.node forms p = some t ∧ t.isFunction
  := by
  obtain ⟨k, -, h⟩ := Option.bind_eq_some_iff.mp h
  obtain ⟨f, hf, rfl⟩ := Option.map_eq_some_iff.mp h
  apply Tree.isFunction_of_mem_formFunctions 0 (n + 4) forms _ f (List.mem_of_find?_eq_some hf)
  intro j t ht
  rw [Nat.zero_add]
  exact ht

section Telling

variable {n : Int} {forms : List Tree} {range : Int → Prop}
variable (hfs : Tree.AreNumbered range (Tree.formFunctions 0 (n + 4) forms))
include hfs

/-- A function is found by the number of its continuation, which it has to itself. -/
theorem siteOf_of_mem (params : List String) {i : Int} {p : Site}
    (h : (i, p) ∈ Tree.formFunctions 0 (n + 4) forms) :
  siteOf n forms (params ++ [nameOf "k" i]) = some p
  := by
  rw [siteOf, List.getLast?_concat, Option.bind_some]
  cases hfind : (Tree.formFunctions 0 (n + 4) forms).find? fun f => nameOf "k" f.1 == nameOf "k" i with
  | none =>
    have hne := List.find?_eq_none.mp hfind _ h
    exact absurd (beq_self_eq_true _) hne
  | some f =>
    have hname := List.find?_some hfind
    have hnumber := (nameOf_injective (beq_iff_eq.mp hname)).2
    have heq := List.inj_on_of_nodup_map hfs.nodup (List.mem_of_find?_eq_some hfind) h hnumber
    rw [heq]
    rfl

/-- No function is found by a last parameter that is not the continuation of one. -/
theorem siteOf_eq_none (params : List String) {x : String} (h : ∀ i, range i → nameOf "k" i ≠ x) :
  siteOf n forms (params ++ [x]) = none
  := by
  have hfind : ((Tree.formFunctions 0 (n + 4) forms).find? fun f => nameOf "k" f.1 == x) = none := by
    rw [List.find?_eq_none]
    intro f hf hx
    exact h f.1 (hfs.range hf) (beq_iff_eq.mp hx)
  rw [siteOf, List.getLast?_concat, Option.bind_some, hfind]
  rfl

variable (hrange : ∀ i, range i → 0 ≤ i)
include hrange

/-- The helper that hands on values is no function of the source. -/
theorem siteOf_helper : siteOf n forms (["f", "v"].map mangle) = none := by
  have hmangle : ["f", "v"].map mangle = ["f"] ++ ["v"] := by decide
  rw [hmangle]
  apply siteOf_eq_none hfs
  intro i hi
  exact (ne_nameOf (by decide) "k" (hrange i hi)).symm

/-- The machine enters the functions of the source that evaluation of the converted program
enters. -/
theorem filterMap_siteOf_of_repeats
    {entered entered' : List (List String)} (h : Machine.Repeats mangle entered entered') :
  entered'.filterMap (siteOf n forms)
    = entered.filterMap fun params => siteOf n forms (params.map mangle)
  := by
  induction h with
  | nil => rfl
  | helper _ ih => rw [List.filterMap_cons, siteOf_helper hfs hrange, ih]
  | function params _ ih => rw [List.filterMap_cons, List.filterMap_cons, ih]
  | suspension _ ih => exact ih

/-- Evaluation of the converted program enters the functions that its parameters tell. -/
theorem filterMap_siteOf_of_reveals
    {start : Int} (hstart : 0 ≤ start) {entered : List (List String)} {ps : List Site}
    (h : Reveals start (fun i p => (i, p) ∈ Tree.formFunctions 0 (n + 4) forms) entered ps) :
  (entered.filterMap fun params => siteOf n forms (params.map mangle)) = ps
  := by
  induction h with
  | nil => rfl
  | helper _ ih => rw [List.filterMap_cons, siteOf_helper hfs hrange, ih]
  | @waiting entered ps i hi _ ih =>
    have hsite : siteOf n forms ([nameOf "s" i].map mangle) = none := by
      rw [List.map_singleton, mangle_nameOf_of_isWord (by decide) (hstart.trans hi)]
      apply siteOf_eq_none hfs []
      intro j hj heq
      exact absurd (nameOf_injective heq).1 (by decide)
    rw [List.filterMap_cons, hsite, ih]
  | @function entered ps i p params hp _ ih =>
    have hsite : siteOf n forms ((params ++ [nameOf "k" i]).map mangle) = some p := by
      rw [List.map_append, List.map_singleton,
        mangle_nameOf_of_isWord (by decide) (hrange i (hfs.range hp))]
      exact siteOf_of_mem hfs _ hp
    rw [List.filterMap_cons, hsite, ih]

end Telling

/-! ### Whole programs -/

section Programs

variable {source : String → Prop} {Es : List Definition} {e : Tree} {n : Int}

/-- A program with a value: its definitions enter no function and are bound where they stand, and
then its expression has the value. -/
theorem exists_account
    {fs : List (Int × Site)} (hfs : ∀ f ∈ Tree.formFunctions 0 (n + 4) (Es.map Definition.toTree), f ∈ fs)
    {fuel : Nat} {v : Value} {a : Account}
    (hv : evaluateAt apart fuel (Es.map Definition.toTree ++ [e]) .start = .ok v a) :
  ∃ a₀, a₀.entered = [] ∧ (∀ x, Bound definedValue [] a₀.globals (Definition.placed Es n) x)
    ∧ (∀ {x q id}, Definition.latest x (Definition.placed Es n) = some q →
      a₀.globals.lookup x = some (definedValue q id) →
        (Survey.ofFunctions fs).allows a₀.sites id q.1.body (q.2 + 1))
    ∧ evalAt apart (callAt apart fuel) [Es.length] [] e a₀ = .ok v a
  := by
  rw [evaluateAt, bind_eq_ok] at hv
  obtain ⟨ws, a₁, hws, hv⟩ := hv
  obtain ⟨rfl, rfl⟩ := pure_eq_ok.mp hv
  obtain ⟨vs, a₀, v, rfl, hvs, hv⟩ := evalSequenceAt_append hws
  obtain ⟨vs', a₀', hvs', hentered, -, hbound, hplace⟩ :=
    evalSequenceAt_toTree apart fuel (applyKName n) Es 0 (n + 4) .start hfs
  rw [hvs] at hvs'
  cases hvs'
  rw [List.length_map, Nat.zero_add] at hv
  rw [List.getLast?_concat, Option.getD_some]
  exact ⟨a₀, hentered, hbound, hplace, hv⟩

/-- A program that has a value: the functions that evaluation enters are functions of the program,
and its entry, once it has been loaded, ends, returns the value, and enters the same functions. -/
theorem entry_enters
    (h : Lexicon source (Definition.closedBy Es e)) (hn : 0 ≤ n) (hmain : ∀ d ∈ Es, d.name ≠ "main")
    (he : e.isDefinition = false) {fuel : Nat} {v : Value} {a : Account}
    (hv : evaluateAt apart fuel (Es.map Definition.toTree ++ [e]) .start = .ok v a)
    {ns : Machine.Namespace} (hloaded : Machine.Loaded source (Definition.closedBy Es e) n 0 ns)
    {f : Int} (hf : Definition.firstFlag (Definition.closedBy Es e) n ≤ f) (id : Nat)
    (st : Machine.State) :
  ∃ v' st' log, Returned v v'
    ∧ Machine.Ends .usual [ns] (Machine.entryOf n 0 (Definition.last Es e n) f id) [] st log v' st'
    ∧ log.filterMap (siteOf n (Es.map Definition.toTree ++ [e])) = a.entered
  := by
  have hfs := Definition.areNumbered_closedBy Es he n
  have hrange : ∀ i, n + 4 < i ∧ i ≠ (Definition.last Es e n).2 + 1 → 0 ≤ i := by
    intro i hi
    omega
  have htable := Definition.formFunctions_closedBy Es he n
  have hmem := (Definition.of_latest (Definition.latest_main Es e n)).1
  obtain ⟨a₀, hentered, hbound, hplace, hv⟩ := exists_account (n := n)
    (fun f hf => htable ▸ List.mem_append_left _ hf) hv
  obtain ⟨s', -, hinstalled⟩ := exists_installed h hn 0 0
  obtain ⟨V, v₁, s₁', ps, entered, hgrows, hmirrors, hreveals, hpasses⟩ := passes_last
    (Survey.ofFunctions _) h hn hmain hbound hplace
    (fun f hf => htable ▸ List.mem_append_right _ hf) hinstalled hv 0 0
  obtain ⟨m, hleads⟩ := hpasses.leads (fun _ _ _ _ h => h)
  have hcall := (hleads 1).trans (callBy_identityValue 0 0 v₁ s₁')
  obtain ⟨entered₁, log, v', st', hpasses₁, hends, hrepeats, htracks, -⟩ := Machine.passes_entryOf
    Machine.Watch.usual_allows h hn hinstalled hloaded hmem hf .nil hcall id st
  refine ⟨v', st', log, .of_mirrors (hmirrors.mono fun _ => trivial) htracks, hends, ?_⟩
  -- both chains of calls are the run of the converted entry
  have hsame := hpasses.unique (rests_identityValue 0 v₁) hpasses₁ (rests_identityValue 0 v₁)
  have hentry : siteOf n (Es.map Definition.toTree ++ [e])
      ([nameOf "k" ((Definition.last Es e n).2 + 1)].map mangle) = none := by
    have hle := Definition.le_numberAfter (applyKName n) Es (n + 4)
    have hlast : Definition.numberAfter (applyKName n) Es (n + 4) = (Definition.last Es e n).2 := rfl
    rw [List.map_singleton, mangle_nameOf_of_isWord (by decide) (by omega)]
    apply siteOf_eq_none hfs []
    intro i hi heq
    exact hi.2 (nameOf_injective heq).2
  rw [filterMap_siteOf_of_repeats hfs hrange hrepeats, ← hsame, List.filterMap_cons, hentry,
    hgrows.entered, hentered, List.nil_append]
  exact filterMap_siteOf_of_reveals hfs hrange (by omega) hreveals

/-- The definition of a function that doubles a number, as it is read. -/
def doubling : Tree :=
  .definition "double" ["n"] (.operation .times [.var "n", .literal (.int 2)]) none

/-- A conditional whose test and branches call functions, as it is read. -/
def difference : Tree :=
  .conditional .serious
    (.operation .equal [.application (.var "next") [.literal (.int 1)], .literal (.int 2)])
    (.operation .minus
      [.application (.var "double") [.application (.var "next") [.literal (.int 3)]],
        .application (.abstraction ["n"] (.application (.var "next") [.var "n"]))
          [.literal (.int 4)]])
    (.application (.var "double") [.literal (.int 5)])

/-- The text of the conditional, with the definitions that it needs. -/
def differenceText : String :=
  "(defn next (n) (+ n 1)) (defn double (n) (* n 2))"
    ++ " (if (= (next 1) 2) (- (double (next 3)) ((fn (n) (next n)) 4)) (double 5))"

/-- The text can be read. -/
theorem readAll_differenceText :
  Tree.readAll differenceText = .ok ([Machine.successor, doubling] ++ [difference])
  := by
  cbv

/-- The text can be compiled. -/
theorem exists_emitted_differenceText :
  ∃ emitted, (compileToSource {} differenceText).result .default = .ok emitted
  := by
  apply exists_of_isOk
  decide +kernel

/-! ### Names that do not keep apart -/

/-- A definition and an expression, as they are read. The second parameter has the identifier of the
name that is drawn for the value of the test. -/
def capturing : List Tree :=
  [.definition "f" ["g", "s_-7"]
      (.conditional .serious (.application (.var "g") [.var "g"])
        (.application (.var "s_-7") [.literal (.int 2)]) (.literal (.int 0))) none,
    .application (.var "f") [.abstraction ["x"] (.var "x"), .abstraction ["x"] (.literal (.int 1))]]

/-- The text of the two. -/
def capturingText : String :=
  "(defn f (g s_-7) (if (g g) (s_-7 2) 0)) (f (fn (x) x) (fn (x) 1))"

/-- Whether the entry of a program, once that has been loaded, returns a number and enters the given
functions of some forms. -/
def mainEnters (forms : List Tree) (n : Number) (sites : List Site) (program : Tree) : Bool :=
  (Machine.Module.ofProgram program).toOption.any fun module =>
    match module.load 0 [] .start with
    | .ok ns st => (ns.lookup "main").any fun main =>
      match Machine.callLogging .usual [ns] 40 main [] ⟨st, []⟩ with
      | .ok (.number m) l =>
        m == n && l.entered.filterMap (siteOf NameSource.default.next forms) == sites
      | _ => false
    | _ => false

/-- A program that passes the test has such a run. -/
theorem exists_of_mainEnters {forms : List Tree} {n : Number} {sites : List Site} {program : Tree}
    (h : mainEnters forms n sites program) :
  ∃ module ns st main l, Machine.Module.ofProgram program = .ok module
    ∧ module.load 0 [] .start = .ok ns st ∧ ns.lookup "main" = some main
    ∧ Machine.callLogging .usual [ns] 40 main [] ⟨st, []⟩ = .ok (.number n) l
    ∧ l.entered.filterMap (siteOf NameSource.default.next forms) = sites
  := by
  obtain ⟨module, hmodule, h⟩ := exists_of_any h
  split at h
  · rename_i ns st hload
    cases hmain : ns.lookup "main" with
    | none =>
      rw [hmain] at h
      contradiction
    | some main =>
      rw [hmain, Option.any_some] at h
      split at h
      · rename_i m l hcall
        rw [Bool.and_eq_true, beq_iff_eq, beq_iff_eq] at h
        obtain ⟨rfl, hsites⟩ := h
        exact ⟨module, ns, st, main, l, hmodule, hload, hmain, hcall, hsites⟩
      · contradiction
  · contradiction

end Programs

end Springboard
