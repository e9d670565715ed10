import Mathlib
import Springboard.Proofs.Definitions
import Springboard.Proofs.Pursuit
import Springboard.Source.Surface

/-!
# Conversion preserves meaning

Definitions and an expression are converted with one source of names, and their continuations are
made functions. The converted expression, evaluated where the converted definitions are bound,
does not return the value of the expression: it calls its continuation on it. Main statement:
whatever that continuation is, evaluating the converted expression is calling it on the value that
the expression has without conversion.
-/

namespace Springboard

open NameSource

/-! ### The stages of conversion -/

/-- A tree that the reader has made of some text. -/
def Tree.IsRead (t : Tree) : Prop :=
  ∃ text ts, Tree.readAll text = .ok ts ∧ t ∈ ts

/-- A definition that holds no other definition. -/
def Tree.isPlainDefinition : Tree → Bool
  | .definition _ _ body _ => !body.holdsDefinition
  | _ => false

/-- Converts definitions, one after the other, and makes their continuations functions. -/
def convertDefinitions (ak : String) : List Tree → Naming (List Tree)
  | [] => pure []
  | d :: ds => do
    let converted ← d.convertDefinition
    let first ← converted.abstractK ak
    let rest ← convertDefinitions ak ds
    pure (first :: rest)

/-- Draws a name for the helper that hands on values, then converts definitions and an expression
with the continuation `k`. -/
def convertAll (base : String) (ds : List Tree) (e : Tree) (k : String) :
    Naming (String × List Tree × Tree) := do
  let ak ← freshName base
  let definitions ← convertDefinitions ak ds
  let converted ← e.convert (some (.var k))
  let expression ← converted.abstractK ak
  pure (ak, definitions, expression)

/-- A step that draws no names. -/
theorem naming_lift {α : Type} {x : Except Error α} {a : α} (h : x = .ok a) (names : NameSource) :
  (liftM x : Naming α) names = .ok (a, names)
  := by
  rw [h]
  rfl

/-- Plain definitions that were read are trees of definitions. -/
theorem exists_definitions
    {ds : List Tree} (hread : ∀ d ∈ ds, d.IsRead) (hplain : ∀ d ∈ ds, d.isPlainDefinition) :
  ∃ Ds : List Definition, ds = Ds.map Definition.toTree ∧ ∀ d ∈ Ds, Surface false d.body
  := by
  induction ds with
  | nil => exact ⟨[], rfl, fun d hd => by contradiction⟩
  | cons d ds ih =>
    obtain ⟨Ds, rfl, hDs⟩ := ih (fun d hd => hread d (List.mem_cons_of_mem _ hd))
      (fun d hd => hplain d (List.mem_cons_of_mem _ hd))
    obtain ⟨text, ts, hts, hmem⟩ := hread d List.mem_cons_self
    have hplain := hplain d List.mem_cons_self
    cases surface_of_readAll hts hmem with
    | @definition name params body _ hbody =>
      refine ⟨⟨name, params, body⟩ :: Ds, rfl, ?_⟩
      rw [Tree.isPlainDefinition, Bool.not_eq_true'] at hplain
      exact List.forall_mem_cons.mpr ⟨hbody.of_not_holdsDefinition hplain, hDs⟩
    | _ => contradiction

/-- Conversion of definitions succeeds, and gives each its number. -/
theorem convertDefinitions_eq
    (ak : String) {Ds : List Definition} (hDs : ∀ d ∈ Ds, Surface false d.body) (start n : Int) :
  convertDefinitions ak (Ds.map Definition.toTree) ⟨start, n⟩
    = .ok ((Definition.numbered ak Ds n).map (fun p => p.1.threaded ak p.2),
        ⟨start, Definition.numberAfter ak Ds n⟩)
  := by
  induction Ds generalizing n with
  | nil => rfl
  | cons d Ds ih =>
    obtain ⟨u, hu, hu'⟩ := Tree.convertDefinition_eq ak none (hDs d List.mem_cons_self) start n
    have ih := ih (fun d hd => hDs d (List.mem_cons_of_mem _ hd))
      (Tree.threadedBody ak d.name d.params d.body n).2
    rw [List.map_cons, convertDefinitions, Definition.toTree, Tree.naming_bind hu,
      Tree.naming_bind (naming_lift hu' _), Tree.naming_bind ih]
    rfl

/-- Conversion of definitions and an expression succeeds. -/
theorem convertAll_eq
    (base k : String) {Ds : List Definition} (hDs : ∀ d ∈ Ds, Surface false d.body) {e : Tree}
    (he : Surface false e) (start n : Int) :
  let ak := nameOf base n
  let m := Definition.numberAfter ak Ds (n + 1)
  convertAll base (Ds.map Definition.toTree) e k ⟨start, n⟩
    = .ok ((ak, (Definition.numbered ak Ds (n + 1)).map (fun p => p.1.threaded ak p.2),
        (Tree.threaded ak (some (.var k)) e m).1), ⟨start, (Tree.threaded ak (some (.var k)) e m).2⟩)
  := by
  intro ak m
  have hk : Tree.Abstracts ak (some (.var k)) (some (.var k)) := rfl
  obtain ⟨u, hu, hu'⟩ := Tree.converts_of_surface ak he _ _ start m (by simp) hk
  rw [← Tree.convert_eq_convertNode he] at hu
  rw [convertAll, Tree.naming_bind (Tree.freshName_eq base start n),
    Tree.naming_bind (convertDefinitions_eq ak hDs start (n + 1)), Tree.naming_bind hu,
    Tree.naming_bind (naming_lift hu' _)]
  rfl

namespace Evaluation

/-! ### Names that stand for numbers -/

/-- Values of global names that are all numbers. -/
def numbers (rho : List (String × Number)) : List (String × Value) :=
  rho.map fun b => (b.1, .number b.2)

/-- A name that stands for a value among numbers stands for a number. -/
theorem exists_of_lookup_numbers
    {rho : List (String × Number)} {x : String} {v : Value} (h : (numbers rho).lookup x = some v) :
  ∃ n, v = .number n
  := by
  induction rho with
  | nil => contradiction
  | cons b rho ih =>
    rw [numbers, List.map_cons, List.lookup_cons] at h
    split at h
    · cases h
      exact ⟨_, rfl⟩
    · exact ih h

/-- Where definitions have been bound over numbers on both sides, the global names have mirrored
values. -/
theorem globals_over_numbers
    {ak : String} {source : String → Prop} {ps : List (Definition × Int)} {start : Int}
    (h : Nomenclature ak source ps start) {rho : List (String × Number)}
    {G G' : List (String × Value)} (hG : ∀ x, Bound definedValue (numbers rho) G ps x)
    (hhelper : ∃ id, G'.lookup ak = some (.closure id ak ["f", "v"] handing []))
    (hown : ∀ p ∈ ps, ∃ id, G'.lookup (p.1.own p.2) = some (threadedValue ak p id))
    (hG' : ∀ x, source x → Bound (threadedValue ak) (numbers rho) G' ps x) :
  Globals h.vocabulary False G G'
  := by
  obtain ⟨id, hid⟩ := hhelper
  refine h.globals (fun _ _ => trivial) ⟨id, ak, hid⟩ ?_ ?_ (fun hfalse => by contradiction)
  · intro x v hv
    have hbound := hG x
    unfold Bound at hbound
    cases hlatest : Definition.latest x ps with
    | some p =>
      left
      rw [hlatest] at hbound
      obtain ⟨id, hid⟩ := hbound
      rw [hid] at hv
      cases hv
      exact ⟨p, id, rfl, rfl⟩
    | none =>
      right
      refine ⟨rfl, ?_⟩
      intro hx
      have hbound' := hG' x hx
      unfold Bound at hbound'
      rw [hlatest] at hbound hbound'
      dsimp only at hbound hbound'
      rw [hbound] at hv
      obtain ⟨n, rfl⟩ := exists_of_lookup_numbers hv
      exact ⟨n, rfl, hbound'.trans hv⟩
  · intro x p hp
    refine ⟨hown p (Definition.of_latest hp).1, ?_⟩
    intro hx
    have hbound' := hG' x hx
    unfold Bound at hbound'
    rw [hp] at hbound'
    exact hbound'

/-- An expression that is evaluated where definitions were bound before and after conversion: its
converted form leads to the call of the continuation. -/
theorem converted_forth
    {ak k : String} {source : String → Prop} {ps : List (Definition × Int)} {start n : Int}
    (hnaming : Nomenclature ak source ps start) {G G' : List (String × Value)}
    (hG : Globals hnaming.vocabulary False G G') {e : Tree} (he : Surface false e)
    (hnames : ∀ x ∈ e.names, source x) (hn : start ≤ n) {κ : Value}
    (hκ : G'.lookup k = some κ) (hk : Spares n (Tree.threaded ak (some (.var k)) e n).2 k)
    {fuel : Nat} {s s₁ τ : State} {v : Number} (hs : Holds G s) (hτ : Holds G' τ)
    (hv : evalBy apart (callBy apart fuel) [] e s = .ok (.number v) s₁) :
  ∃ τ', Holds G' τ' ∧ Leads
    (runs BinaryOp.apply [] (Tree.threaded ak (some (.var k)) e n).1 τ)
    (calls BinaryOp.apply κ [.number v] τ')
  := by
  have hscope : Scope hnaming.vocabulary none n [] [] :=
    ⟨⟨hn, rfl, fun h => by contradiction⟩, fun x _ => .rfl, fun x v v' _ hv => by contradiction⟩
  have hfind : find [] G' k = some κ := hκ
  have hwaits : Waits G' [] n (Tree.threaded ak (some (.var k)) e n).2 (.var k) := by
    refine ⟨⟨κ, .var hfind⟩, ?_⟩
    rintro x hx
    cases hx
    exact hk
  have hrule : ∀ b (x y z : Value), apart b x y = .ok z → BinaryOp.apply b x y = .ok z :=
    fun b x y z h => BinaryOp.apply_of_apart h
  rw [← Renaming.tree_none he] at hwaits
  obtain ⟨δ, κ', v', τ', hδ, hdenotes, hmirrors, hτ', hleads⟩ :=
    leads_of_eval hrule hG he hnames hscope hs hv hwaits hτ
  rw [Renaming.tree_none he] at hδ hleads
  cases hmirrors
  cases hdenotes with
  | var hκ' =>
    rw [hδ.find hk, hfind] at hκ'
    cases hκ'
    exact ⟨τ', hτ', hleads⟩

/-- The names that stand in definitions are names of the source. -/
theorem mem_namesAll_of_definition
    {Ds : List Definition} {d : Definition} (hd : d ∈ Ds) (e : Tree) {x : String}
    (hx : x ∈ d.name :: (d.params ++ d.body.names)) :
  x ∈ Tree.namesAll (Ds.map Definition.toTree ++ [e])
  := by
  refine Tree.mem_namesAll.mpr ⟨d.toTree, ?_, hx⟩
  exact List.mem_append_left _ (List.mem_map_of_mem hd)

/-- The names of a program that was read, when none of them ends in a number. -/
theorem nomenclature_of_read
    {base ak : String} {n : Int} (hn : 0 ≤ n) (hak : nameOf base n = ak) {Ds : List Definition}
    (hDs : ∀ d ∈ Ds, Surface false d.body) {e : Tree}
    (hnumbered : ∀ x ∈ Tree.namesAll (Ds.map Definition.toTree ++ [e]), ¬ isNumbered x) :
  Nomenclature ak (· ∈ Tree.namesAll (Ds.map Definition.toTree ++ [e]))
    (Definition.numbered ak Ds (n + 1)) (n + 1)
  := by
  apply Nomenclature.of_numbered (by omega) ⟨base, n, hak.symm, hn, by omega⟩ _ hDs
  · intro d hd x hx
    exact mem_namesAll_of_definition hd e (List.mem_cons_of_mem _ hx)
  · intro x hx base i hi
    exact ne_nameOf (hnumbered x hx) base hi

/-- The definition of the factorial, as it is read. -/
def factorial : Tree :=
  .definition "fact" ["n"]
    (.conditional .serious (.operation .equal [.var "n", .literal (.int 0)]) (.literal (.int 1))
      (.operation .times [.var "n",
        .application (.var "fact") [.operation .minus [.var "n", .literal (.int 1)]]])) none

/-- A sum with a factorial in it, as it is read. -/
def factorialSum : Tree :=
  .operation .plus [.var "y", .application (.var "fact") [.literal (.int 3)]]

end Evaluation

end Springboard
