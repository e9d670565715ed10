import Springboard.Proofs.Compilation

/-!
# Coined names

The names that a compiled program binds beside those of its source are coined: those of the helpers,
of the inner definitions, of continuations, of the values that are computed first, and of flags.
Main statement: they are the names that were drawn from the source of names, one for each number
that its counter went through. So a coined name is also a name of the text only where that was
written like a fresh name.
-/

namespace Springboard

open NameSource

/-! ### Names that were drawn -/

/-- The names are those drawn while the counter went from `n` to `m`, one for each number and on a
base that is allowed. -/
def AreDrawn (allowed : String → Prop) (n m : Int) (xs : List String) : Prop :=
  ∃ base : Int → String, (∀ i, n ≤ i → i < m → allowed (base i))
    ∧ ∀ x, x ∈ xs ↔ ∃ i, n ≤ i ∧ i < m ∧ x = nameOf (base i) i

namespace AreDrawn

variable {allowed allowed' : String → Prop} {l m n : Int} {xs ys : List String}

/-- While the counter stands still no name is drawn. -/
theorem nil : AreDrawn allowed n n [] := by
  use fun _ => ""
  constructor
  · intro i hi hi'
    omega
  · intro x
    constructor
    · intro hx
      contradiction
    · rintro ⟨i, hi, hi', -⟩
      omega

/-- A name is drawn for the next number. -/
theorem singleton {base : String} (h : allowed base) :
  AreDrawn allowed n (n + 1) [nameOf base n]
  := by
  use fun _ => base
  constructor
  · intro i _ _
    exact h
  · intro x
    rw [List.mem_singleton]
    constructor
    · intro hx
      exact ⟨n, le_refl n, by omega, hx⟩
    · rintro ⟨i, hi, hi', rfl⟩
      rw [show i = n by omega]

/-- Names are drawn one after the other. -/
theorem append (hxs : AreDrawn allowed l m xs) (hys : AreDrawn allowed m n ys) (hlm : l ≤ m)
    (hmn : m ≤ n) :
  AreDrawn allowed l n (xs ++ ys)
  := by
  obtain ⟨base, hbase, hxs⟩ := hxs
  obtain ⟨base', hbase', hys⟩ := hys
  use fun i => if i < m then base i else base' i
  constructor
  · intro i hi hi'
    split
    · apply hbase i hi
      assumption
    · apply hbase' i _ hi'
      omega
  · intro x
    rw [List.mem_append, hxs, hys]
    constructor
    · rintro (⟨i, hi, hi', rfl⟩ | ⟨i, hi, hi', rfl⟩)
      · refine ⟨i, hi, by omega, ?_⟩
        rw [if_pos hi']
      · refine ⟨i, by omega, hi', ?_⟩
        rw [if_neg (by omega)]
    · rintro ⟨i, hi, hi', hx⟩
      split at hx
      · left
        use i
      · right
        exact ⟨i, by omega, hi', hx⟩

/-- It does not matter in which order the names stand, and whether they stand twice. -/
theorem congr (h : AreDrawn allowed n m xs) (hmem : ∀ x, x ∈ xs ↔ x ∈ ys) :
  AreDrawn allowed n m ys
  := by
  obtain ⟨base, hbase, hxs⟩ := h
  use base, hbase
  intro x
  rw [← hmem, hxs]

/-- More bases may be allowed. -/
theorem mono (h : AreDrawn allowed n m xs) (hallowed : ∀ base, allowed base → allowed' base) :
  AreDrawn allowed' n m xs
  := by
  obtain ⟨base, hbase, hxs⟩ := h
  use base
  constructor
  · intro i hi hi'
    apply hallowed
    apply hbase i hi hi'
  · exact hxs

end AreDrawn

/-! ### Names that are coined -/

namespace Tree

mutual

/-- The names that a compiled tree binds beside those of the source: the last parameter of every
function that has one, the inner definitions, continuations and flags of entries, and helpers. -/
def coined : Tree → List String
  | operation _ operands => coinedAll operands
  | conditional _ test conseq alt => coined test ++ coined conseq ++ coined alt
  | abstraction params body => params.getLast?.toList ++ coined body
  | definition _ _ body _ => coined body
  | application rator rands => coined rator ++ coinedAll rands
  | entry _ _ k flag inner => inner.name?.toList ++ [k, flag] ++ coined inner
  | program definitions helpers => helpers.map Prod.snd ++ coinedAll definitions
  | _ => []

/-- The names that some compiled trees bind beside those of the source. -/
def coinedAll : List Tree → List String
  | [] => []
  | t :: ts => coined t ++ coinedAll ts

end

/-- Trees coin together what they coin one by one. -/
theorem coinedAll_append (ts us : List Tree) :
  coinedAll (ts ++ us) = coinedAll ts ++ coinedAll us
  := by
  induction ts with
  | nil => rfl
  | cons t ts ih => rw [List.cons_append, coinedAll, coinedAll, ih, List.append_assoc]

mutual

/-- Suspension coins no name and drops none. -/
theorem coined_suspend : ∀ (t : Tree) {u : Tree}, t.suspend = .ok u → u.coined = t.coined
  | .literal _, u, h | .var _, u, h => by
      cases h
      rfl
  | .operation op operands, u, h => by
      simp only [suspend, Except.bind_eq_ok] at h
      obtain ⟨us, hus, h⟩ := h
      cases h
      rw [coined, coined, coinedAll_suspendAll operands hus]
  | .conditional .converted test conseq alt, u, h => by
      simp only [suspend, Except.bind_eq_ok] at h
      obtain ⟨test', htest, conseq', hconseq, alt', halt, h⟩ := h
      cases h
      rw [coined, coined, coined_suspend test htest, coined_suspend conseq hconseq,
        coined_suspend alt halt]
  | .abstraction params body, u, h => by
      simp only [suspend, Except.bind_eq_ok] at h
      obtain ⟨body', hbody, h⟩ := h
      cases h
      rw [coined, coined, delayed, coined, coined_suspend body hbody]
      rfl
  | .definition name params body own, u, h => by
      simp only [suspend, Except.bind_eq_ok] at h
      obtain ⟨body', hbody, h⟩ := h
      cases h
      rw [coined, coined, delayed, coined, coined_suspend body hbody]
      rfl
  | .application rator rands, u, h => by
      simp only [suspend, Except.bind_eq_ok] at h
      obtain ⟨rator', hrator, rands', hrands, h⟩ := h
      cases h
      rw [coined, coined, coined_suspend rator hrator, coinedAll_suspendAll rands hrands]
  | .conditional .plain _ _ _, u, h | .conditional .trivial _ _ _, u, h
  | .conditional .serious _ _ _, u, h | .continuation _ _, u, h | .resumption _ _, u, h
  | .blank, u, h | .entry _ _ _ _ _, u, h | .program _ _, u, h | .nothing, u, h | .number _, u, h
  | .text _, u, h | .list _, u, h | .tuple _, u, h => by
      simp only [suspend] at h
      contradiction

/-- Suspension of some trees coins no name and drops none. -/
theorem coinedAll_suspendAll :
    ∀ (ts : List Tree) {us : List Tree}, suspendAll ts = .ok us → coinedAll us = coinedAll ts
  | [], us, h => by
      cases h
      rfl
  | t :: ts, us, h => by
      simp only [suspendAll, Except.bind_eq_ok] at h
      obtain ⟨u, hu, us', hus, h⟩ := h
      cases h
      rw [coinedAll, coinedAll, coined_suspend t hu, coinedAll_suspendAll ts hus]

end

/-! ### Threaded trees -/

/-- The bases of the names that threading draws. -/
def IsLocalBase (base : String) : Prop :=
  base = "k" ∨ base = "s"

/-- However a continuation is threaded through the tree, what the result coins is what threading
draws, and what the continuation coins. -/
def CoinsDrawn (ak : String) (t : Tree) : Prop :=
  ∀ k? n, ∃ xs, AreDrawn IsLocalBase n (threaded ak k? t n).2 xs
    ∧ ∀ x, x ∈ (threaded ak k? t n).1.coined ↔ x ∈ xs ∨ ∃ k ∈ k?, x ∈ k.coined

section Threaded

variable {ak : String}

/-- A value that is handed on coins its names and those of the continuation. -/
theorem mem_coined_handed (k? : Option Tree) (value : Tree) (x : String) :
  x ∈ (handed ak k? value).coined ↔ x ∈ value.coined ∨ ∃ k ∈ k?, x ∈ k.coined
  := by
  cases k? with
  | none => simp [handed]
  | some k => simp [handed, coined, coinedAll, or_comm]

/-- Without a continuation a tree coins what threading draws. -/
theorem CoinsDrawn.areDrawn {t : Tree} (h : CoinsDrawn ak t) (n : Int) :
  AreDrawn IsLocalBase n (threaded ak none t n).2 (threaded ak none t n).1.coined
  := by
  obtain ⟨xs, hdrawn, hxs⟩ := h none n
  apply hdrawn.congr
  intro x
  rw [hxs]
  simp

/-- The values that stand for some parts coin, together with the names of those that are computed
first, what threading draws. -/
theorem areDrawn_threadedParts {ts : List Tree} (h : ∀ t ∈ ts, CoinsDrawn ak t) (n : Int) :
  AreDrawn IsLocalBase n (threadedParts ak ts n).2
    (coinedAll (threadedParts ak ts n).1.1 ++ (threadedParts ak ts n).1.2.reduceOption)
  := by
  induction ts generalizing n with
  | nil =>
    rw [threadedParts]
    exact .nil
  | cons t ts ih =>
    obtain ⟨ht, hts⟩ := List.forall_mem_cons.mp h
    rw [threadedParts]
    split
    · have hfirst := ht.areDrawn n
      have hrest := ih hts (threaded ak none t n).2
      have hdrawn := hfirst.append hrest (le_threaded ak none t n) (le_threadedParts ak ts _)
      apply hdrawn.congr
      intro x
      simp [coinedAll]
    · have hfirst : AreDrawn IsLocalBase n (n + 1) [nameOf "s" n] := .singleton (.inr rfl)
      have hdrawn := hfirst.append (ih hts (n + 1)) (by omega) (le_threadedParts ak ts (n + 1))
      apply hdrawn.congr
      intro x
      simp [coinedAll, coined, or_left_comm]

/-- What is computed first in front of a tree coins what threading draws, the names of the values,
and what the tree coins. -/
theorem exists_drawn_threadedPending {ts : List Tree} (h : ∀ t ∈ ts, CoinsDrawn ak t) (n m : Int)
    (result : Tree) :
  ∃ xs, AreDrawn IsLocalBase m (threadedPending ak ts (threadedParts ak ts n).1.2 result m).2 xs
    ∧ ∀ x, x ∈ (threadedPending ak ts (threadedParts ak ts n).1.2 result m).1.coined
      ↔ x ∈ xs ∨ x ∈ (threadedParts ak ts n).1.2.reduceOption ∨ x ∈ result.coined
  := by
  induction ts generalizing n with
  | nil =>
    use []
    rw [threadedParts, threadedPending]
    · exact ⟨.nil, by simp⟩
    all_goals intros; contradiction
  | cons t ts ih =>
    obtain ⟨ht, hts⟩ := List.forall_mem_cons.mp h
    rw [threadedParts]
    split
    · rw [threadedPending]
      obtain ⟨xs, hdrawn, hxs⟩ := ih hts (threaded ak none t n).2
      use xs, hdrawn
      simpa using hxs
    · rw [threadedPending]
      obtain ⟨xs, hdrawn, hxs⟩ := ih hts (n + 1)
      generalize hrest : threadedPending ak ts (threadedParts ak ts (n + 1)).1.2 result m = rest
        at hdrawn hxs ⊢
      obtain ⟨ys, hdrawn', hys⟩ := ht (some (abstraction [nameOf "s" n] rest.1)) rest.2
      have hle : m ≤ rest.2 := hrest ▸ le_threadedPending ak ts _ result m
      use xs ++ ys
      constructor
      · exact hdrawn.append hdrawn' hle (le_threaded ak _ t rest.2)
      · intro x
        have hfurther : (∃ k ∈ some (abstraction [nameOf "s" n] rest.1), x ∈ k.coined)
            ↔ x = nameOf "s" n ∨ x ∈ rest.1.coined := by
          simp [coined]
        rw [hys, hfurther, hxs, List.mem_append, List.reduceOption_cons_of_some, List.mem_cons]
        tauto

/-- A tree that is put together from the values of parts, with what is computed first in front of
it, coins what threading draws, and what it coins beside the values. -/
theorem exists_drawn_of_parts {ts : List Tree} (h : ∀ t ∈ ts, CoinsDrawn ak t) {n : Int}
    {result : Tree} {further : String → Prop}
    (hresult : ∀ x, x ∈ result.coined ↔ x ∈ coinedAll (threadedParts ak ts n).1.1 ∨ further x) :
  ∃ xs, AreDrawn IsLocalBase n
      (threadedPending ak ts (threadedParts ak ts n).1.2 result (threadedParts ak ts n).2).2 xs
    ∧ ∀ x, x ∈ (threadedPending ak ts (threadedParts ak ts n).1.2 result
        (threadedParts ak ts n).2).1.coined ↔ x ∈ xs ∨ further x
  := by
  obtain ⟨xs, hdrawn, hxs⟩ := exists_drawn_threadedPending h n (threadedParts ak ts n).2 result
  use coinedAll (threadedParts ak ts n).1.1 ++ (threadedParts ak ts n).1.2.reduceOption ++ xs
  constructor
  · apply (areDrawn_threadedParts h n).append hdrawn
    · apply le_threadedParts
    · apply le_threadedPending
  · intro x
    rw [hxs, hresult, List.mem_append, List.mem_append]
    tauto

/-- Every surface tree coins what threading draws. -/
theorem coinsDrawn_of_surface {t : Tree} (ht : Surface false t) : CoinsDrawn ak t := by
  induction ht with
  | literal value =>
    intro k? n
    rw [threaded]
    exact ⟨[], .nil, mem_coined_handed k? (.literal value)⟩
  | var x =>
    intro k? n
    rw [threaded]
    exact ⟨[], .nil, mem_coined_handed k? (.var x)⟩
  | @operation op operands hcount hoperands ih =>
    intro k? n
    rw [threaded]
    apply exists_drawn_of_parts ih
    intro x
    rw [mem_coined_handed, coined]
  | @trivialConditional test conseq alt htrivial htest hconseq halt ihtest ihconseq ihalt =>
    intro k? n
    rw [threaded]
    refine ⟨_, ?_, mem_coined_handed k? _⟩
    rw [coined]
    have hdrawn := (ihtest.areDrawn n).append (ihconseq.areDrawn _) (le_threaded ak none test n)
      (le_threaded ak none conseq _)
    apply hdrawn.append (ihalt.areDrawn _)
    · apply (le_threaded ak none test n).trans
      apply le_threaded
    · apply le_threaded
  | @seriousConditional test conseq alt htest hconseq halt ihtest ihconseq ihalt =>
    intro k? n
    rw [threaded_conditional]
    obtain ⟨xs, hdrawn, hxs⟩ := ihconseq k? n
    obtain ⟨ys, hdrawn', hys⟩ := ihalt k? (threaded ak k? conseq n).2
    have hle := le_threaded ak k? conseq n
    have hle' := le_threaded ak k? alt (threaded ak k? conseq n).2
    generalize threaded ak k? alt (threaded ak k? conseq n).2 = alt' at hdrawn' hys hle' ⊢
    have hparts := @exists_drawn_of_parts ak [test] (List.forall_mem_singleton.mpr ihtest) alt'.2
      (chosen (threaded ak k? conseq n).1 alt'.1 (threadedParts ak [test] alt'.2).1.1)
      (fun x => x ∈ (threaded ak k? conseq n).1.coined ∨ x ∈ alt'.1.coined) ?_
    · obtain ⟨zs, hdrawn'', hzs⟩ := hparts
      use xs ++ ys ++ zs
      constructor
      · apply (hdrawn.append hdrawn' hle hle').append hdrawn'' (hle.trans hle')
        apply (le_threadedParts ak [test] alt'.2).trans
        apply le_threadedPending
      · intro x
        rw [hzs, hxs, hys, List.mem_append, List.mem_append]
        tauto
    · intro x
      obtain ⟨test', htest'⟩ := exists_threadedParts_singleton ak test alt'.2
      rw [htest', chosen, coined]
      simp [coinedAll]
  | @abstraction params body hbody ih =>
    intro k? n
    rw [threaded]
    obtain ⟨xs, hdrawn, hxs⟩ := ih (some (var (nameOf "k" n))) (n + 1)
    have hfirst : AreDrawn IsLocalBase n (n + 1) [nameOf "k" n] := .singleton (.inl rfl)
    use [nameOf "k" n] ++ xs
    constructor
    · apply hfirst.append hdrawn
      · omega
      · apply le_threaded
    · intro x
      rw [mem_coined_handed, coined, List.mem_append, hxs, List.getLast?_concat]
      simp [coined]
  | definition name params hnested _ _ => contradiction
  | @application rator rands hrator hrands ihrator ihrands =>
    intro k? n
    rw [threaded_application]
    apply exists_drawn_of_parts (List.forall_mem_cons.mpr ⟨ihrator, ihrands⟩)
    intro x
    obtain ⟨rator', rands', hparts⟩ := exists_threadedParts_cons ak rator rands n
    rw [hparts, applied, coined, coinedAll_append, coinedAll]
    cases k? with
    | none => simp [coinedAll]
    | some k => simp [coinedAll, or_assoc]

end Threaded

end Tree

/-! ### Programs -/

/-- The bases of the names that are drawn in the compilation of some definitions. -/
def IsBase (Ds : List Definition) (base : String) : Prop :=
  (∃ helper : Helper, base = helper.role) ∨ Tree.IsLocalBase base ∨ base = "done"
    ∨ ∃ d ∈ Ds, base = d.name

/-- The names that the conversion of a definition coins, if these have the numbers from `n` on. -/
def Definition.coinedAt (ak : String) (d : Definition) (n : Int) : List String :=
  [d.own n] ++ [nameOf "k" (n + 1)] ++ (Tree.threadedBody ak d.name d.params d.body n).1.coined

/-- A definition coins what its conversion draws. -/
theorem Definition.areDrawn_coinedAt (ak : String) {Ds : List Definition} {d : Definition}
    (hmem : d ∈ Ds) (hd : Surface false d.body) (n : Int) :
  AreDrawn (IsBase Ds) n (Tree.threadedBody ak d.name d.params d.body n).2 (d.coinedAt ak n)
  := by
  have hown : AreDrawn (IsBase Ds) n (n + 1) [d.own n] :=
    .singleton (.inr (.inr (.inr ⟨d, hmem, rfl⟩)))
  have hk : AreDrawn (IsBase Ds) (n + 1) (n + 2) [nameOf "k" (n + 1)] := by
    have h := @AreDrawn.singleton (IsBase Ds) (n + 1) "k" (.inr (.inl (.inl rfl)))
    rwa [show n + 1 + 1 = n + 2 by omega] at h
  have hsurface := Renaming.surface_tree hd
    (Renaming.under (some (d.name, nameOf d.name n)) d.params)
  obtain ⟨xs, hdrawn, hxs⟩ := @Tree.coinsDrawn_of_surface ak _ hsurface
    (some (.var (nameOf "k" (n + 1)))) (n + 2)
  have hbody : AreDrawn (IsBase Ds) (n + 2) (Tree.threadedBody ak d.name d.params d.body n).2
      (Tree.threadedBody ak d.name d.params d.body n).1.coined := by
    apply (hdrawn.mono fun base hbase => .inr (.inl hbase)).congr
    intro x
    rw [Tree.threadedBody, hxs]
    simp [Tree.coined]
  have hlt := lt_threadedBody ak d n
  apply (hown.append hk (by omega) (by omega)).append hbody
  · omega
  · omega

/-- Definitions coin what their conversion draws. -/
theorem areDrawn_numbered (ak : String) {Ds : List Definition} {ds : List Definition}
    (hsub : ∀ d ∈ ds, d ∈ Ds) (hds : ∀ d ∈ ds, Surface false d.body) (n : Int) :
  AreDrawn (IsBase Ds) n (Definition.numberAfter ak ds n)
    ((Definition.numbered ak ds n).flatMap fun p => p.1.coinedAt ak p.2)
  := by
  induction ds generalizing n with
  | nil => exact .nil
  | cons d ds ih =>
    obtain ⟨hmem, hsub⟩ := List.forall_mem_cons.mp hsub
    obtain ⟨hd, hds⟩ := List.forall_mem_cons.mp hds
    have hlt := d.lt_threadedBody ak n
    rw [Definition.numbered, Definition.numberAfter, List.flatMap_cons]
    apply (Definition.areDrawn_coinedAt ak hmem hd n).append (ih hsub hds _)
    · omega
    · apply Definition.le_numberAfter

/-- The entry of a converted definition coins the names of that and its flag. -/
theorem coined_toEntry {ak : String} {p : Definition × Int} {t : Tree}
    (h : (p.1.threaded ak p.2).suspend = .ok t) (start f : Int) :
  ∃ e, t.toEntry ⟨start, f⟩ = .ok (e, ⟨start, f + 1⟩)
    ∧ ∀ x, x ∈ e.coined ↔ x ∈ p.1.coinedAt ak p.2 ∨ x = nameOf "done" f
  := by
  simp only [Definition.threaded, Tree.suspend, Except.bind_eq_ok] at h
  obtain ⟨body, hbody, h⟩ := h
  cases h
  refine ⟨_, Machine.toEntry_delayed _ _ _ _ _ start f, ?_⟩
  intro x
  simp [Tree.coined, Tree.name?, Tree.delayed, Definition.coinedAt, Tree.coined_suspend _ hbody]
  tauto

/-- The entries of converted definitions coin the names of those and their flags. -/
theorem exists_flags {ak : String} {ps : List (Definition × Int)} {ts es : List Tree}
    {start f : Int} {names : NameSource}
    (hts : Tree.suspendAll (ps.map fun p => p.1.threaded ak p.2) = .ok ts)
    (hes : Tree.toEntries ts ⟨start, f⟩ = .ok (es, names)) :
  ∃ flags, AreDrawn (· = "done") f names.next flags ∧ f ≤ names.next
    ∧ ∀ x, x ∈ Tree.coinedAll es ↔ x ∈ ps.flatMap (fun p => p.1.coinedAt ak p.2) ∨ x ∈ flags
  := by
  induction ps generalizing ts es f with
  | nil =>
    cases hts
    cases hes
    exact ⟨[], .nil, le_refl f, by simp [Tree.coinedAll]⟩
  | cons p ps ih =>
    simp only [List.map_cons, Tree.suspendAll, Except.bind_eq_ok] at hts
    obtain ⟨t, ht, ts, hts, h⟩ := hts
    cases h
    obtain ⟨e, he, hcoined⟩ := coined_toEntry ht start f
    rw [Tree.toEntries, Tree.naming_bind he, Tree.naming_bind_eq_ok] at hes
    obtain ⟨es, names', hes, h⟩ := hes
    cases h
    obtain ⟨flags, hdrawn, hle, hflags⟩ := ih hts hes
    have hfirst : AreDrawn (· = "done") f (f + 1) [nameOf "done" f] := .singleton rfl
    refine ⟨[nameOf "done" f] ++ flags, hfirst.append hdrawn (by omega) hle, by omega, ?_⟩
    intro x
    rw [Tree.coinedAll, List.mem_append, hcoined, hflags, List.flatMap_cons, List.mem_append,
      List.mem_append, List.mem_singleton]
    apply or_or_or_comm

/-- The helpers are named by the first numbers. -/
theorem areDrawn_helpersAt (Ds : List Definition) (n : Int) :
  AreDrawn (IsBase Ds) n (n + 4) ((helpersAt n).map Prod.snd)
  := by
  have hname : ∀ (helper : Helper) (i : Int),
      AreDrawn (IsBase Ds) i (i + 1) [nameOf helper.role i] := fun helper i =>
    .singleton (.inl ⟨helper, rfl⟩)
  have hdrawn := (((hname .applyK n).append (hname .makeFlag (n + 1)) (by omega) (by omega)).append
    (hname .identity (n + 1 + 1)) (by omega) (by omega)).append (hname .trampoline (n + 1 + 1 + 1))
    (by omega) (by omega)
  rw [show n + 4 = n + 1 + 1 + 1 + 1 by omega]
  apply hdrawn.congr
  intro x
  rw [helpersAt, show n + 3 = n + 1 + 1 + 1 by omega, show n + 2 = n + 1 + 1 by omega]
  simp [applyKName]

/-- **The coined names are those that were drawn.** Let a text be compiled, with any source of
names. The names that the program binds beside those of the text are fresh names, one for each
number that the counter went through, and on a base that is the role of a helper, that of a local
name, that of a flag, or the name of a definition. So they differ from every name of the text, as
long as that is not itself written like a fresh name. -/
theorem mem_coined_iff
    {entry : String} {runtime : Tree} {text : String} {forms : List Tree}
    (hread : Tree.readAll text = .ok forms) {names : NameSource} {notes : List Note}
    {program : Tree} {p : Progress}
    (h : compileText ⟨.text entry, runtime⟩ text ⟨names, notes⟩ = .ok program p) :
  (∃ base : Int → String,
      (∀ i, names.next ≤ i → i < p.names.next →
          IsBase (forms.map (Definition.ofForm entry)) (base i))
        ∧ ∀ x, x ∈ program.coined
          ↔ ∃ i, names.next ≤ i ∧ i < p.names.next ∧ x = nameOf (base i) i)
    ∧ (0 ≤ names.next → ∀ x ∈ Tree.namesAll forms, ¬ isNumbered x → x ∉ program.coined)
  := by
  obtain ⟨start, n⟩ := names
  obtain ⟨hsurface, -, ts, hts, hprogram⟩ := stages_of_run rfl hread h
  rw [Tree.toProgram, Tree.naming_bind_eq_ok] at hprogram
  obtain ⟨es, names', hes, hprogram⟩ := hprogram
  cases hprogram
  obtain ⟨flags, hflagsDrawn, hle, hflags⟩ := exists_flags hts hes
  have hdrawn : AreDrawn (IsBase (forms.map (Definition.ofForm entry))) n p.names.next
      (Tree.programOf es (helpersAt n)).coined := by
    have hdefinitions := areDrawn_numbered (applyKName n) (fun d hd => hd) hsurface (n + 4)
    have hflagsDrawn : AreDrawn (IsBase (forms.map (Definition.ofForm entry))) _ _ flags :=
      hflagsDrawn.mono fun base hbase => .inr (.inr (.inl hbase))
    have hleDefinitions := Definition.le_numberAfter (applyKName n)
      (forms.map (Definition.ofForm entry)) (n + 4)
    have hall := ((areDrawn_helpersAt _ n).append hdefinitions (by omega) hleDefinitions).append
      hflagsDrawn (by omega) hle
    apply hall.congr
    intro x
    rw [Tree.programOf, sorted_helpersAt, Tree.coined, List.mem_append, List.mem_append,
      List.mem_append, hflags, or_assoc]
    rfl
  refine ⟨hdrawn, ?_⟩
  intro hn x _ hx hmem
  obtain ⟨base, -, hcoined⟩ := hdrawn
  obtain ⟨i, hi, -, rfl⟩ := (hcoined x).mp hmem
  apply hx
  apply isNumbered_nameOf
  exact hn.trans hi

/-- A definition whose parameter is written like its continuation. -/
def collidingText : String := "(defn f (k__6) k__6)"

/-- Nothing keeps a name of the text from being coined, and then the program cannot be loaded. -/
theorem mem_coined_iff_collidingText :
  ∃ forms program p, Tree.readAll collidingText = .ok forms
    ∧ compileText {} collidingText ⟨.default, []⟩ = .ok program p
    ∧ "k__6" ∈ Tree.namesAll forms ∧ "k__6" ∈ program.coined
    ∧ (Machine.Module.ofProgram program).isOk = false
    ∧ ∃ base : Int → String,
      ∀ x, x ∈ program.coined ↔ ∃ i, 1 ≤ i ∧ i < p.names.next ∧ x = nameOf (base i) i
  := by
  have hread : (Tree.readAll collidingText).toOption.any
      (fun forms => "k__6" ∈ Tree.namesAll forms) := by
    decide +kernel
  have hprogram : ((compileText {} collidingText).result .default).toOption.any
      (fun program => "k__6" ∈ program.coined
        ∧ (Machine.Module.ofProgram program).isOk = false) := by
    decide +kernel
  obtain ⟨forms, hforms, hname⟩ := exists_of_any hread
  obtain ⟨program, hprogram, htest⟩ := exists_of_any hprogram
  obtain ⟨hcoined, hmodule⟩ := of_decide_eq_true htest
  obtain ⟨p, hp⟩ := result_eq_ok.mp hprogram
  obtain ⟨⟨base, -, hbase⟩, -⟩ := mem_coined_iff hforms hp
  exact ⟨forms, program, p, hforms, hp, of_decide_eq_true hname, hcoined, hmodule, base, hbase⟩

end Springboard
