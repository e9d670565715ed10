import Springboard.Proofs.Compilation
import Springboard.Proofs.Pursuit
import Springboard.Proofs.Reflection
import Springboard.Proofs.Returning
import Springboard.Proofs.Trampolining

/-!
# Evaluation and compiled programs agree

A text of definitions and one expression can be evaluated as it is, or it can be compiled, loaded
and run from its entry. Main statements: what evaluation comes to is what the entry returns, where a
function is returned for a function; and a number that the entry returns is what evaluation comes
to, so that where evaluation fails the entry returns no number. Functions that are compared are
compared on both sides as what they are there, so the runs must not compare functions.
-/

namespace Springboard

open NameSource Evaluation

/-! ### The entry of a program -/

/-- The definitions of a program, the last of which is its entry. -/
def Definition.closedBy (Es : List Definition) (e : Tree) : List Definition :=
  Es ++ [⟨"main", [], e⟩]

/-- The entry of a program, with its number. -/
def Definition.last (Es : List Definition) (e : Tree) (n : Int) : Definition × Int :=
  (⟨"main", [], e⟩, numberAfter (applyKName n) Es (n + 4))

section Entry

variable {source : String → Prop} {Es : List Definition} {e : Tree} {n : Int}

/-- The entry has its place behind the definitions. -/
theorem Definition.placed_closedBy (Es : List Definition) (e : Tree) (n : Int) :
  placed (closedBy Es e) n = placed Es n ++ [last Es e n]
  := by
  rw [placed, closedBy, numbered_append]
  rfl

/-- The last definition of the entry's name is the entry. -/
theorem Definition.latest_main (Es : List Definition) (e : Tree) (n : Int) :
  latest "main" (placed (closedBy Es e) n) = some (last Es e n)
  := by
  rw [placed_closedBy, latest_concat]
  exact if_pos rfl

/-- The last definition of another name is none that the entry changes. -/
theorem Definition.latest_of_ne (Es : List Definition) (e : Tree) (n : Int) {x : String}
    (hx : x ≠ "main") :
  latest x (placed (closedBy Es e) n) = latest x (placed Es n)
  := by
  rw [placed_closedBy, latest_concat]
  exact if_neg hx.symm

/-- A definition that is converted at some number is one of the definitions. -/
theorem Definition.mem_of_mem_placed {Ds : List Definition} {p : Definition × Int}
    (hp : p ∈ placed Ds n) :
  p.1 ∈ Ds
  := by
  exact (number_of_mem_numbered hp).1

/-- The names of a compiled program, as conversion has to know them. -/
theorem Lexicon.nomenclature {Ds : List Definition} (h : Lexicon source Ds) (hn : 0 ≤ n) :
  Nomenclature (applyKName n) source (Definition.placed Ds n) (n + 4)
  := by
  apply Nomenclature.of_numbered (by omega) ⟨_, n, rfl, hn, by omega⟩
  · intro x hx base i hi
    exact h.ne_nameOf hx base hi
  · intro d hd
    exact h.surface hd
  · intro d hd x hx
    exact h.names hd x (List.mem_cons_of_mem _ hx)

/-- A name of the source is bound to the value of its last definition, converted. -/
theorem Installed.bound_of_source
    {Ds : List Definition} {G' : List (String × Value)} (h : Installed Ds n G')
    (hnaming : Nomenclature (applyKName n) source (Definition.placed Ds n) (n + 4)) (hn : 0 ≤ n)
    {x : String} (hx : source x) :
  Bound (threadedValue (applyKName n)) [] G' (Definition.placed Ds n) x
  := by
  apply h.bound
  · exact hnaming.unnumbered hx _ n hn
  · intro p hp
    have hnumber := hnaming.number hp
    exact hnaming.unnumbered hx _ _ (by omega)

/-- Before conversion the definitions are bound, but not the entry, which evaluation does not
know. After conversion it is bound too. -/
theorem globals_forth
    (hmain : ∀ d ∈ Es, d.name ≠ "main") (hn : 0 ≤ n)
    (hnaming : Nomenclature (applyKName n) source (Definition.placed (Definition.closedBy Es e) n)
      (n + 4))
    {G G' : List (String × Value)} (hG : ∀ x, Bound definedValue [] G (Definition.placed Es n) x)
    (hG' : Installed (Definition.closedBy Es e) n G') {P : Placing}
    (hplace : ∀ {x p id}, Definition.latest x (Definition.placed Es n) = some p →
      G.lookup x = some (definedValue p id) → P id p.1.body (p.2 + 1)) :
  GlobalsAt P hnaming.vocabulary False G G'
  := by
  -- a name that evaluation knows is not that of the entry
  have hlatest : ∀ {x v}, G.lookup x = some v → ∃ p id, v = definedValue p id
      ∧ Definition.latest x (Definition.placed Es n) = some p
      ∧ Definition.latest x (Definition.placed (Definition.closedBy Es e) n) = some p := by
    intro x v hv
    obtain ⟨p, id, hp, rfl⟩ := (hG x).exists_of_lookup hv
    obtain ⟨hmem, rfl⟩ := Definition.of_latest hp
    have hname := hmain p.1 (Definition.mem_of_mem_placed hmem)
    exact ⟨p, id, rfl, hp, (Definition.latest_of_ne Es e n hname).trans hp⟩
  apply hnaming.globals _ hG'.helper
  · intro x v hv
    obtain ⟨p, id, rfl, -, hp⟩ := hlatest hv
    exact .inl ⟨p, id, hp, rfl⟩
  · intro x p hp
    refine ⟨hG'.own (Definition.of_latest hp).1, ?_⟩
    intro hx
    exact (hG'.bound_of_source hnaming hn hx).of_latest hp
  · intro h
    contradiction
  · intro x p id hp hv
    obtain ⟨q, -, -, hq, hq'⟩ := hlatest hv
    cases hp.symm.trans hq'
    exact hplace hq hv

/-- Where the entry's name does not count as one of the source, the source knows the definitions
alone, before and after conversion. -/
theorem globals_back
    (hnaming : Nomenclature (applyKName n) source (Definition.placed (Definition.closedBy Es e) n)
      (n + 4)) (hn : 0 ≤ n)
    (hnaming' : Nomenclature (applyKName n) (fun x => source x ∧ x ≠ "main")
      (Definition.placed Es n) (n + 4))
    {G G' : List (String × Value)} (hG : ∀ x, Bound definedValue [] G (Definition.placed Es n) x)
    (hG' : Installed (Definition.closedBy Es e) n G') :
  Globals hnaming'.vocabulary True G G'
  := by
  have hbound : ∀ {x}, source x ∧ x ≠ "main" →
      Bound (threadedValue (applyKName n)) [] G' (Definition.placed Es n) x := by
    intro x hx
    have hsource := hG'.bound_of_source hnaming hn hx.1
    unfold Bound at hsource ⊢
    rw [Definition.latest_of_ne Es e n hx.2] at hsource
    exact hsource
  apply hnaming'.globals (fun _ _ => trivial) hG'.helper
  · intro x v hv
    exact .inl ((hG x).exists_of_lookup hv)
  · intro x p hp
    refine ⟨?_, fun hx => (hbound hx).of_latest hp⟩
    apply hG'.own
    rw [Definition.placed_closedBy]
    exact List.mem_append_left _ (Definition.of_latest hp).1
  · intro _ x
    refine ⟨fun hp => (hG x).of_latest hp, ?_⟩
    intro hlatest hx v' hv'
    obtain ⟨p, id, hp, -⟩ := (hbound hx).exists_of_lookup hv'
    rw [hlatest] at hp
    contradiction

/-! ### From evaluation to the entry -/

/-- A value of evaluation, and a value that a compiled program returns for it: a number is returned
as it is, and for a function some function is returned, which is not a suspension. -/
inductive Returned : Value → Machine.Value → Prop
  | number (n : Number) : Returned (.number n) (.number n)
  | function {id : Nat} {name : String} {params : List String} {body : Tree} {env : Env}
      {v' : Machine.Value} (hfunction : v'.isFunction) (hsuspension : v'.isSuspension = false) :
      Returned (.closure id name params body env) v'

/-- What stands for the counterpart of a value can be returned for it. -/
theorem Returned.of_mirrors
    {V : Vocabulary} {S : Machine.Setting} {v v₁ : Value} {v' : Machine.Value}
    (h : Mirrors V v v₁) (h' : Machine.Tracks S v₁ v') :
  Returned v v'
  := by
  cases h with
  | number n =>
    cases h'
    exact .number n
  | closure hbody hnames hclear hbound hvalues =>
    generalize hv₁ : Value.closure _ _ _ _ _ = v₁ at h'
    cases h' with
    | number n => contradiction
    | entry hr id id' => exact .function rfl rfl
    | inner hr id id' henv => exact .function rfl rfl
    | @closure I id id' name params k body env env' =>
      refine .function rfl ?_
      rw [List.map_append]
      cases params <;> rfl

/-- An expression that has a value where the definitions are bound: called with the identity, the
converted entry is a chain of calls that ends with the call of the identity on a counterpart of that
value. Behind the entry it enters the counterparts of the functions that evaluation enters. -/
theorem passes_last
    (F : Survey) (h : Lexicon source (Definition.closedBy Es e)) (hn : 0 ≤ n)
    (hmain : ∀ d ∈ Es, d.name ≠ "main") {a a₁ : Account} {s' : State} {fuel : Nat} {v : Value}
    {p : Site} (ha : ∀ x, Bound definedValue [] a.globals (Definition.placed Es n) x)
    (hplace : ∀ {x q id}, Definition.latest x (Definition.placed Es n) = some q →
      a.globals.lookup x = some (definedValue q id) → F.allows a.sites id q.1.body (q.2 + 1))
    (hpath : ∀ f ∈ Tree.functions p ((Definition.last Es e n).2 + 2) e, F.path f.1 f.2)
    (hs' : Installed (Definition.closedBy Es e) n s'.globals)
    (hv : evalAt apart (callAt apart fuel) p [] e a = .ok v a₁) (id id₀ : Nat) :
  ∃ V v₁ s₁' ps entered, Grows a ps a₁ ∧ MirrorsAt (F.allows a₁.sites) V v v₁
    ∧ Reveals (n + 4) F.path entered ps
    ∧ Passes (threadedValue (applyKName n) (Definition.last Es e n) id, [identityValue id₀]) s'
      ([nameOf "k" ((Definition.last Es e n).2 + 1)] :: entered) (identityValue id₀, [v₁]) s₁'
  := by
  have hnaming := h.nomenclature hn
  have hlatest := Definition.latest_main Es e n
  have hmem := (Definition.of_latest hlatest).1
  have hG := globals_forth hmain hn hnaming ha hs' hplace
  have hscope := (hnaming.scope_of_latest hlatest (P := F.allows a.sites)).enter
    (fun x (hx : x ∈ []) => by contradiction) .nil rfl (identityValue id₀)
  have hnumber : (Definition.last Es e n).2 + 1 + 1 = (Definition.last Es e n).2 + 2 := by omega
  rw [hnumber] at hscope
  obtain ⟨ps, hgrows, hfollows⟩ := follows hG fuel (hnaming.surface hmem)
    (fun x hx => hnaming.names hmem x (List.mem_append_right _ hx)) hpath hscope
    ⟨rfl, List.prefix_rfl⟩ hv
  -- the identity is what the continuation of the entry stands for
  have hlookup := @find_continuation [] [] rfl (nameOf "k" ((Definition.last Es e n).2 + 1))
    (identityValue id₀) [] s'.globals
  obtain ⟨δ, κ, v₁, s₁', entered, hδ, hκ, hmirrors, -, hreveals, harrives⟩ :=
    hfollows (.var_nameOf hlookup (by omega) _) rfl
  cases hκ with
  | var hκ =>
    rw [hδ.find (spares_nameOf "k" (.inl (by omega))), hlookup] at hκ
    cases hκ
    exact ⟨_, v₁, s₁', ps, entered, hgrows, hmirrors, hreveals, .of_arrives rfl harrives⟩

/-- An expression that has a value where the definitions are bound: called with the identity, the
converted entry has a counterpart of that value. -/
theorem callBy_last_forth
    (h : Lexicon source (Definition.closedBy Es e)) (hn : 0 ≤ n)
    (hmain : ∀ d ∈ Es, d.name ≠ "main") {s s₁ s' : State} {fuel : Nat} {v : Value}
    (hs : ∀ x, Bound definedValue [] s.globals (Definition.placed Es n) x)
    (hs' : Installed (Definition.closedBy Es e) n s'.globals)
    (hv : evalBy apart (callBy apart fuel) [] e s = .ok v s₁) (id id₀ : Nat) :
  ∃ V v₁ m s₁', Mirrors V v v₁
    ∧ callBy apart m (threadedValue (applyKName n) (Definition.last Es e n) id)
      [identityValue id₀] s' = .ok v₁ s₁'
  := by
  obtain ⟨a, rfl⟩ := Account.exists_state s
  obtain ⟨a₁, hv, -⟩ := (shows_evalAt (shows_callAt apart fuel) [] [] e).exists_ok hv
  obtain ⟨V, v₁, s₁', ps, entered, -, hmirrors, -, hpasses⟩ := passes_last .free h hn hmain hs
    (fun _ _ => trivial) (fun _ _ => trivial) hs' hv id id₀
  obtain ⟨m, hleads⟩ := hpasses.leads (fun _ _ _ _ h => h)
  exact ⟨V, v₁, m + 1, s₁', hmirrors, (hleads 1).trans (callBy_identityValue id₀ 0 v₁ s₁')⟩

/-! ### From the entry to evaluation -/

/-- If the converted entry, called with the identity, has a number for its value, so has the
expression, where the definitions are bound. The name of the entry must not occur. -/
theorem evalBy_of_callBy_last
    (h : Lexicon source (Definition.closedBy Es e)) (hn : 0 ≤ n)
    (hmain : ∀ d ∈ Definition.closedBy Es e, "main" ∉ d.params ++ d.body.names)
    {s s' s₁' : State} {fuel : Nat} {v : Number}
    (hs : ∀ x, Bound definedValue [] s.globals (Definition.placed Es n) x)
    (hs' : Installed (Definition.closedBy Es e) n s'.globals) {id id₀ : Nat}
    (hv : callBy apart (fuel + 1) (threadedValue (applyKName n) (Definition.last Es e n) id)
      [identityValue id₀] s' = .ok (.number v) s₁') :
  ∃ s₁, evalBy apart (callBy apart fuel) [] e s = .ok (.number v) s₁
  := by
  have hentry : ⟨"main", [], e⟩ ∈ Definition.closedBy Es e :=
    List.mem_append_right _ (List.mem_singleton_self _)
  have hsurface : Surface false e := h.surface hentry
  have hne : ∀ {d x}, d ∈ Definition.closedBy Es e → x ∈ d.params ++ d.body.names →
      source x ∧ x ≠ "main" := by
    intro d x hd hx
    exact ⟨h.names hd x (List.mem_cons_of_mem _ hx), fun heq => hmain d hd (heq ▸ hx)⟩
  have hEs : ∀ {d}, d ∈ Es → d ∈ Definition.closedBy Es e := fun hd => List.mem_append_left _ hd
  have hnaming : Nomenclature (applyKName n) (fun x => source x ∧ x ≠ "main")
      (Definition.placed Es n) (n + 4) :=
    .of_numbered (by omega) ⟨_, n, rfl, hn, by omega⟩ (fun hx base i hi => h.ne_nameOf hx.1 base hi)
      (fun d hd => h.surface (hEs hd)) (fun d hd x hx => hne (hEs hd) hx)
  have hG := globals_back (h.nomenclature hn) hn hnaming hs hs'
  -- the entry is not renamed in its body, so the expression is converted as it stands
  have hnumber := Definition.le_numberAfter (applyKName n) Es (n + 4)
  have hscope : Scope hnaming.vocabulary none ((Definition.last Es e n).2 + 1) [] [] := by
    refine ⟨⟨?_, rfl, fun h => by contradiction⟩, fun x _ => .rfl, fun x v v' _ hv => by contradiction⟩
    exact hnumber.trans (Int.le_add_one (le_refl _))
  have hmirrors := hscope.mirrors_closure hsurface (fun x hx => hne hentry hx) 0 id "main" "main"
    trivial
  have hbody : (Renaming.under none []).tree e
      = (Renaming.under (some ("main", nameOf "main" (Definition.last Es e n).2)) []).tree e := by
    rw [Renaming.under_none, Renaming.tree_none hsurface, Renaming.under_of_notMem (by simp),
      Renaming.tree_of_notMem hsurface (hmain _ hentry)]
  rw [hbody, show (Definition.last Es e n).2 + 1 + 1 = (Definition.last Es e n).2 + 2 by omega]
    at hmirrors
  obtain ⟨v', s₂', m, -, -, hreturn, w, s₁, hw, hwv', -⟩ :=
    call_back (fun m _ t ht => carriesBack hG trivial m ht) hmirrors .nil rfl rfl hv
  cases m with
  | zero => contradiction
  | succ m =>
    rw [calls, callBy_identityValue] at hreturn
    cases hreturn
    cases hwv'
    exact ⟨s₁, hw⟩

end Entry

/-! ### Whole texts -/

section Texts

variable {text emitted : String} {ds : List Tree} {e : Tree} {ns : Machine.Namespace}

/-- Definitions that were read, before an expression, are what they stand for. -/
theorem map_toTree_ofForm
    (hread : Tree.readAll text = .ok (ds ++ [e])) (hds : ∀ d ∈ ds, d.isDefinition) :
  (ds.map (Definition.ofForm "main")).map Definition.toTree = ds
  := by
  have htoTree : ∀ d ∈ ds, (Definition.ofForm "main" d).toTree = d := by
    intro d hd
    apply Definition.toTree_ofForm "main" _ (hds d hd)
    exact surface_of_readAll hread (List.mem_append_left _ hd)
  rw [List.map_map]
  exact (List.map_congr_left htoTree).trans (List.map_id ds)

/-- Definitions and an expression stand for a program that is closed by the expression. -/
theorem map_ofForm_append (ds : List Tree) (he : e.isDefinition = false) :
  (ds ++ [e]).map (Definition.ofForm "main")
    = Definition.closedBy (ds.map (Definition.ofForm "main")) e
  := by
  rw [List.map_append, List.map_singleton, Definition.ofForm_of_not_isDefinition "main" he]
  rfl

/-- An evaluation that has a value and compares no two functions has it with more fuel too, and
never fails. -/
theorem evaluate_of_apart
    {fuel : Nat} {ts : List Tree} {s s' : State} {v : Value}
    (h : evaluateBy apart fuel ts s = .ok v s') :
  (∀ m ≥ fuel, evaluateBy apart m ts s = .ok v s' ∧ evaluate m ts s = .ok v s')
    ∧ ∀ m error s'', evaluate m ts s ≠ .error (.failed error) s''
  := by
  have hvalue : ∀ m ≥ fuel, evaluateBy apart m ts s = .ok v s' ∧ evaluate m ts s = .ok v s' := by
    intro m hm
    refine ⟨(evaluateBy_fuel apart hm ts).eq_ok h, ?_⟩
    rw [← evaluateBy_apply]
    have hrule : Rule.Approximates (fun _ => True) apart BinaryOp.apply :=
      .of_results fun b x y z h => BinaryOp.apply_of_apart h
    exact (evaluateBy_approximates trivial hrule hm ts).eq_ok h
  refine ⟨hvalue, ?_⟩
  intro m error s'' herror
  rcases Nat.le_total fuel m with hm | hm
  · rw [(hvalue m hm).2] at herror
    contradiction
  · have hfuel := (hvalue fuel Nat.le.refl).2
    rw [← evaluateBy_apply] at herror hfuel
    have hreason : ¬ OutOfFuel (.failed error) := fun h => by contradiction
    rw [(evaluateBy_fuel BinaryOp.apply hm ts).eq_error hreason herror] at hfuel
    contradiction

/-- Evaluating definitions that were read binds them, whatever the numbers of their conversion. -/
theorem exists_bound
    (hread : Tree.readAll text = .ok (ds ++ [e])) (hds : ∀ d ∈ ds, d.isDefinition) (rule : Rule)
    (fuel : Nat) (n : Int) (made : Nat) :
  ∃ vs s, evalSequenceBy rule fuel ds ⟨[], made⟩ = .ok vs s
    ∧ ∀ x, Bound definedValue [] s.globals
      (Definition.placed (ds.map (Definition.ofForm "main")) n) x
  := by
  obtain ⟨vs, s, hvs, hbound⟩ := evalSequenceBy_toTree rule fuel
    (Definition.placed (ds.map (Definition.ofForm "main")) n) ⟨[], made⟩
  refine ⟨vs, s, ?_, hbound⟩
  have hmap : ((Definition.placed (ds.map (Definition.ofForm "main")) n).map fun p => p.1.toTree)
      = ds := by
    have hfst := Definition.map_fst_numbered (applyKName n) (ds.map (Definition.ofForm "main"))
      (n + 4)
    have htoTree := map_toTree_ofForm hread hds
    rw [← hfst, List.map_map] at htoTree
    exact htoTree
  rw [hmap] at hvs
  exact hvs

/-- A text of definitions and one expression that is well named and compiled can be loaded, and
binds its entry. -/
theorem exists_loaded
    (hread : Tree.readAll text = .ok (ds ++ [e])) (he : e.isDefinition = false)
    (hcompile : (compileToSource {} text).result .default = .ok emitted)
    (hnamed : WellNamed (ds ++ [e])) (hns : Vacant (ds ++ [e]) ns) :
  let Es := ds.map (Definition.ofForm "main")
  let source := fun x => x ∈ Tree.namesAll (ds ++ [e]) ∨ x = "main"
  Lexicon source (Definition.closedBy Es e) ∧ (∀ d ∈ Es, d.name ≠ "main")
    ∧ ∃ program module, (compileText {} text).result .default = .ok program
      ∧ Machine.Module.ofProgram program = .ok module
      ∧ ∀ st, ∃ ns' st₁ f id, module.load 0 ns st = .ok ns' st₁ ∧ st₁.flags = st.flags
        ∧ Machine.Loaded source (Definition.closedBy Es e) 1 0 ns'
        ∧ Definition.firstFlag (Definition.closedBy Es e) 1 ≤ f
        ∧ ns'.lookup "main" = some (Machine.entryOf 1 0 (Definition.last Es e 1) f id)
  := by
  intro Es source
  obtain ⟨program, hprogram⟩ := exists_program_of_source hcompile
  obtain ⟨hlexicon, hpairwise, hmodule⟩ := hnamed.of_compileText hread
    (by decide : 0 ≤ NameSource.default.next) hprogram
  rw [map_ofForm_append ds he] at hlexicon hpairwise hmodule
  refine ⟨hlexicon, ?_, program, _, hprogram, hmodule, ?_⟩
  · intro d hd
    rw [Definition.closedBy, List.pairwise_append] at hpairwise
    exact hpairwise.2.2 d hd _ (List.mem_singleton_self _)
  · intro st
    have hundefined : ∀ x, source x → (∀ d ∈ Definition.closedBy Es e, d.name ≠ x) →
        ns.lookup (mangle x) = none := by
      rintro x (hx | rfl) hother
      · exact hns.names x hx
      · exact absurd rfl (hother _ (List.mem_append_right _ (List.mem_singleton_self _)))
    obtain ⟨ns', st₁, hload, hflags, hloaded⟩ :=
      Machine.load_moduleAt hlexicon (by decide : (0 : Int) ≤ 1) 0 hundefined hns.numbered st
    obtain ⟨f, id, hf, hentry⟩ := hloaded.entry (Definition.latest_main Es e 1)
    have hident : mangle "main" = "main" := by decide
    rw [hident] at hentry
    exact ⟨ns', st₁, f, id, hload, hflags, hloaded, hf, hentry⟩

/-- **The entry returns what evaluation comes to.** A text of definitions and one expression is
compiled; it is well named, and global names are not in its way. If evaluation comes to a value, and
compares no two functions on the way, then the program of the text can be loaded, and its entry,
called without arguments from any state, ends: with the value if this is a number, and with a
function that is not a suspension if it is a function. -/
theorem main_returns_value
    (hcompile : (compileToSource {} text).result .default = .ok emitted)
    (hread : Tree.readAll text = .ok (ds ++ [e])) (hds : ∀ d ∈ ds, d.isDefinition)
    (he : e.isDefinition = false) (hnamed : WellNamed (ds ++ [e])) (hns : Vacant (ds ++ [e]) ns)
    {fuel made : Nat} {v : Value} {s : State}
    (hv : evaluateBy apart fuel (ds ++ [e]) ⟨[], made⟩ = .ok v s) :
  ∃ program module, (compileText {} text).result .default = .ok program
    ∧ Machine.Module.ofProgram program = .ok module
    ∧ ∀ st, ∃ ns' st₁ main, module.load 0 ns st = .ok ns' st₁ ∧ ns'.lookup "main" = some main
      ∧ ∀ st₂, ∃ v' st' N, Returned v v'
        ∧ ∀ fuel ≥ N, Machine.call [ns'] fuel main [] st₂ = .ok v' st'
  := by
  obtain ⟨hlexicon, hmain, program, module, hprogram, hmodule, hload⟩ :=
    exists_loaded hread he hcompile hnamed hns
  refine ⟨program, module, hprogram, hmodule, ?_⟩
  intro st
  obtain ⟨ns', st₁, f, id, hload, -, hloaded, hf, hentry⟩ := hload st
  refine ⟨ns', st₁, _, hload, hentry, ?_⟩
  intro st₂
  obtain ⟨vs, s₂, hvs, hv⟩ := evaluateBy_append.mp hv
  obtain ⟨vs', s₂', hvs', hbound⟩ := exists_bound hread hds apart fuel 1 made
  rw [hvs] at hvs'
  cases hvs'
  obtain ⟨s', -, hinstalled⟩ := exists_installed hlexicon (by decide : (0 : Int) ≤ 1) 0 0
  obtain ⟨V, v₁, m, s₁', hmirrors, hcall⟩ :=
    callBy_last_forth hlexicon (by decide) hmain hbound hinstalled hv 0 0
  have hmem := (Definition.of_latest
    (Definition.latest_main (ds.map (Definition.ofForm "main")) e 1)).1
  obtain ⟨v', st', N, htracks, -, hends⟩ := Machine.ends_entryOf hlexicon (by decide) hinstalled
    hloaded hmem hf .nil hcall id st₂
  refine ⟨v', st', N, .of_mirrors hmirrors htracks, ?_⟩
  intro fuel hfuel
  exact Machine.call_of_apart (hends fuel hfuel)

/-- The definition of a function that applies another one twice, as it is read. -/
def applyTwice : Tree :=
  .definition "twice" ["f", "x"] (.application (.var "f") [.application (.var "f") [.var "x"]]) none

/-- The square of the square of three, as it is read. -/
def squareTwice : Tree :=
  .application (.var "twice")
    [.abstraction ["n"] (.operation .times [.var "n", .var "n"]), .literal (.int 3)]

/-- The text of the two. -/
def squareTwiceText : String :=
  "(defn twice (f x) (f (f x))) (twice (fn (n) (* n n)) 3)"

/-- The text can be read. -/
theorem readAll_squareTwiceText : Tree.readAll squareTwiceText = .ok ([applyTwice] ++ [squareTwice]) := by
  cbv

/-- The text can be compiled. -/
theorem exists_emitted_squareTwiceText :
  ∃ emitted, (compileToSource {} squareTwiceText).result .default = .ok emitted
  := by
  apply exists_of_isOk
  decide +kernel

/-- The compiled program that squares three twice, by a function that is handed on, returns
eighty-one. -/
theorem main_returns_value_squareTwice :
  ∃ program module, (compileText {} squareTwiceText).result .default = .ok program
    ∧ Machine.Module.ofProgram program = .ok module
    ∧ ∀ st, ∃ ns' st₁ main, module.load 0 [] st = .ok ns' st₁ ∧ ns'.lookup "main" = some main
      ∧ ∀ st₂, ∃ st' N, ∀ fuel ≥ N,
        Machine.call [ns'] fuel main [] st₂ = .ok (.number (.int 81)) st'
  := by
  obtain ⟨emitted, hcompile⟩ := exists_emitted_squareTwiceText
  obtain ⟨s, hs⟩ : ∃ s, evaluateBy apart 9 ([applyTwice] ++ [squareTwice]) ⟨[], 0⟩
      = .ok (.number (.int 81)) s := ⟨_, rfl⟩
  obtain ⟨program, module, hprogram, hmodule, h⟩ := main_returns_value hcompile
    readAll_squareTwiceText (by decide) rfl ⟨rfl, by decide, by decide⟩
    (⟨fun _ _ => rfl, fun _ _ => rfl⟩ : Vacant _ []) hs
  refine ⟨program, module, hprogram, hmodule, ?_⟩
  intro st
  obtain ⟨ns', st₁, main, hload, hmain, h⟩ := h st
  refine ⟨ns', st₁, main, hload, hmain, ?_⟩
  intro st₂
  obtain ⟨v', st', N, hreturned, hcall⟩ := h st₂
  cases hreturned
  exact ⟨st', N, hcall⟩

end Texts

end Springboard
