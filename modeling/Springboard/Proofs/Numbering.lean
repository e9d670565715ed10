import Springboard.Proofs.Sites
import Springboard.Proofs.Threading

/-!
# The numbers of functions

Threading gives each function of a tree a continuation of its own, with a number of its own. Where a
function stands in the tree decides which number it gets, but not from the left to the right: what is
trivial among some parts comes first, and the other parts come behind it, from the last to the first.
Here are the numbers that threading uses up, and the list of the functions of a tree with the numbers
of their continuations. Main statement: no two functions have the same number.
-/

namespace Springboard.Tree

open NameSource

/-! ### How many numbers are used up -/

mutual

/-- How many numbers are used up by threading a tree. -/
def draws : Tree → Int
  | abstraction _ body => 1 + draws body
  | operation _ operands => drawsFirst operands + drawsLater operands
  | conditional .trivial test conseq alt => draws test + draws conseq + draws alt
  | conditional _ test conseq alt =>
    draws conseq + draws alt + (if test.isTrivial then 0 else 1) + draws test
  | application rator rands =>
    (if rator.isTrivial then 0 else 1) + draws rator + drawsFirst rands + drawsLater rands
  | _ => 0

/-- How many numbers are used up by the values of some parts, and by the names of those that have to
be computed first. -/
def drawsFirst : List Tree → Int
  | [] => 0
  | t :: ts => (if t.isTrivial then draws t else 1) + drawsFirst ts

/-- How many numbers are used up by the parts that have to be computed first. -/
def drawsLater : List Tree → Int
  | [] => 0
  | t :: ts => (if t.isTrivial then 0 else draws t) + drawsLater ts

end

/-- In an application the function is a part like the arguments. -/
theorem draws_application (rator : Tree) (rands : List Tree) :
  draws (application rator rands) = drawsFirst (rator :: rands) + drawsLater (rator :: rands)
  := by
  rw [draws, drawsFirst, drawsLater]
  split
  · omega
  · omega

/-- In a conditional that needs evaluation the test is a part, behind the branches. -/
theorem draws_conditional (test conseq alt : Tree) :
  draws (conditional .serious test conseq alt)
    = draws conseq + draws alt + (drawsFirst [test] + drawsLater [test])
  := by
  rw [draws, drawsFirst, drawsFirst, drawsLater, drawsLater]
  · split
    · omega
    · omega
  · intro h
    contradiction

mutual

/-- Threading a tree uses up as many numbers as it draws, whatever is renamed in it. -/
theorem snd_threaded (ak : String) :
    ∀ (k? : Option Tree) (r : Renaming) (t : Tree) (n : Int),
      (threaded ak k? (r.tree t) n).2 = n + draws t
  | k?, r, .abstraction params body, n => by
      rw [Renaming.tree, threaded, draws]
      dsimp only
      rw [snd_threaded ak _ _ body, Int.add_assoc]
  | k?, r, .operation op operands, n => by
      rw [Renaming.tree, threaded, draws, snd_threadedPending ak r operands,
        snd_threadedParts ak r operands, Int.add_assoc]
  | k?, r, .conditional .trivial test conseq alt, n => by
      rw [Renaming.tree, threaded, draws]
      dsimp only
      rw [snd_threaded ak _ r alt, snd_threaded ak _ r conseq, snd_threaded ak _ r test]
      omega
  | k?, r, .conditional .serious test conseq alt, n
  | k?, r, .conditional .plain test conseq alt, n
  | k?, r, .conditional .converted test conseq alt, n => by
      rw [Renaming.tree, threaded, draws]
      · dsimp only
        rw [r.isTrivial_tree]
        split
        · rw [snd_threaded ak _ r test, snd_threaded ak _ r alt, snd_threaded ak _ r conseq]
          omega
        · rw [snd_threaded ak _ r test, snd_threaded ak _ r alt, snd_threaded ak _ r conseq]
          omega
      all_goals
        intro h
        contradiction
  | k?, r, .application rator rands, n => by
      rw [Renaming.tree, threaded, draws, r.isTrivial_tree]
      split
      · dsimp only
        rw [snd_threadedPending ak r rands, snd_threadedParts ak r rands, snd_threaded ak _ r rator]
        omega
      · dsimp only
        rw [snd_threaded ak _ r rator, snd_threadedPending ak r rands, snd_threadedParts ak r rands]
        omega
  | k?, r, .literal _, n | k?, r, .var _, n | k?, r, .definition _ _ _ _, n | k?, r, .blank, n
  | k?, r, .continuation _ _, n | k?, r, .resumption _ _, n | k?, r, .entry _ _ _ _ _, n
  | k?, r, .program _ _, n | k?, r, .nothing, n | k?, r, .number _, n | k?, r, .text _, n
  | k?, r, .list _, n | k?, r, .tuple _, n => by
      simp only [Renaming.tree, threaded, draws, Int.add_zero]

/-- Threading parts uses up as many numbers as they draw first. -/
theorem snd_threadedParts (ak : String) :
    ∀ (r : Renaming) (ts : List Tree) (n : Int),
      (threadedParts ak (r.trees ts) n).2 = n + drawsFirst ts
  | r, [], n => by
      rw [Renaming.trees, threadedParts, drawsFirst, Int.add_zero]
  | r, t :: ts, n => by
      rw [Renaming.trees, threadedParts, drawsFirst, r.isTrivial_tree]
      split
      · dsimp only
        rw [snd_threadedParts ak r ts, snd_threaded ak _ r t, Int.add_assoc]
      · dsimp only
        rw [snd_threadedParts ak r ts, Int.add_assoc]

/-- Threading what is computed first uses up as many numbers as the parts draw later. -/
theorem snd_threadedPending (ak : String) :
    ∀ (r : Renaming) (ts : List Tree) (n : Int) (result : Tree) (m : Int),
      (threadedPending ak (r.trees ts) (threadedParts ak (r.trees ts) n).1.2 result m).2
        = m + drawsLater ts
  | r, [], n, result, m => by
      simp only [Renaming.trees, threadedPending, drawsLater, Int.add_zero]
  | r, t :: ts, n, result, m => by
      rw [Renaming.trees, threadedParts, drawsLater, r.isTrivial_tree]
      split
      · rw [threadedPending, snd_threadedPending ak r ts, Int.zero_add]
      · rw [threadedPending, snd_threaded ak _ r t, snd_threadedPending ak r ts]
        omega

end

/-- Numbers are used up, never given back. -/
theorem draws_nonneg (t : Tree) : 0 ≤ draws t := by
  have hle := le_threaded "" none (Renaming.tree none t) 0
  rw [snd_threaded, Int.zero_add] at hle
  exact hle

/-- Numbers that parts draw are used up, never given back. -/
theorem drawsIn_nonneg (ts : List Tree) : 0 ≤ drawsFirst ts ∧ 0 ≤ drawsLater ts := by
  have hfirst := le_threadedParts "" (Renaming.trees none ts) 0
  have hlater := le_threadedPending "" (Renaming.trees none ts)
    (threadedParts "" (Renaming.trees none ts) 0).1.2 blank 0
  rw [snd_threadedParts, Int.zero_add] at hfirst
  rw [snd_threadedPending, Int.zero_add] at hlater
  exact ⟨hfirst, hlater⟩

/-! ### Functions and their places -/

mutual

/-- The functions of a tree that stands at the end of a path and is threaded from the number `n` on:
the numbers of their continuations, with their paths. -/
def functions (p : Site) (n : Int) : Tree → List (Int × Site)
  | abstraction _ body => (n, p) :: functions (p ++ [0]) (n + 1) body
  | operation _ operands => functionsIn p 0 n (n + drawsFirst operands) operands
  | conditional .trivial test conseq alt =>
    functions (p ++ [0]) n test ++ (functions (p ++ [1]) (n + draws test) conseq
      ++ functions (p ++ [2]) (n + draws test + draws conseq) alt)
  | conditional _ test conseq alt =>
    functions (p ++ [1]) n conseq ++ (functions (p ++ [2]) (n + draws conseq) alt
      ++ functions (p ++ [0]) (n + draws conseq + draws alt + if test.isTrivial then 0 else 1) test)
  | application rator rands =>
    functions (p ++ [0])
        (if rator.isTrivial then n else n + drawsFirst (rator :: rands) + drawsLater rands) rator
      ++ functionsIn p 1 (n + if rator.isTrivial then draws rator else 1)
        (n + drawsFirst (rator :: rands)) rands
  | _ => []

/-- The functions of some children of a node, the first of which has the number `i`. Their values are
threaded from the number `n` on, and those that have to be computed first from `m` on. -/
def functionsIn (p : Site) (i : Nat) (n m : Int) : List Tree → List (Int × Site)
  | [] => []
  | t :: ts =>
    functions (p ++ [i]) (if t.isTrivial then n else m + drawsLater ts) t
      ++ functionsIn p (i + 1) (n + if t.isTrivial then draws t else 1) m ts

end

/-- In an application the function is a part like the arguments. -/
theorem functions_application (p : Site) (n : Int) (rator : Tree) (rands : List Tree) :
  functions p n (application rator rands)
    = functionsIn p 0 n (n + drawsFirst (rator :: rands)) (rator :: rands)
  := by
  rw [functions, functionsIn]

/-- In a conditional that needs evaluation the test is a part, behind the branches. -/
theorem functions_conditional (p : Site) (n : Int) (test conseq alt : Tree) :
  functions p n (conditional .serious test conseq alt)
    = functions (p ++ [1]) n conseq ++ (functions (p ++ [2]) (n + draws conseq) alt
      ++ functionsIn p 0 (n + draws conseq + draws alt)
        (n + draws conseq + draws alt + drawsFirst [test]) [test])
  := by
  rw [functions, functionsIn, functionsIn, List.append_nil, drawsFirst, drawsFirst, drawsLater]
  · split
    · rw [Int.add_zero]
    · rw [Int.add_zero, Int.add_zero]
  · intro h
    contradiction

/-! ### No number is given twice -/

/-- Functions with numbers of their own, all of which are in a range. -/
structure AreNumbered (range : Int → Prop) (fs : List (Int × Site)) : Prop where
  nodup : (fs.map Prod.fst).Nodup
  range {f : Int × Site} : f ∈ fs → range f.1

namespace AreNumbered

variable {range range' : Int → Prop} {fs fs' : List (Int × Site)}

/-- No functions need no numbers. -/
theorem nil : AreNumbered range [] := by
  refine ⟨List.nodup_nil, ?_⟩
  intro f hf
  contradiction

/-- Numbers that are in a range are in a larger one. -/
theorem mono (h : AreNumbered range fs) (hrange : ∀ i, range i → range' i) :
  AreNumbered range' fs
  := by
  exact ⟨h.nodup, fun hf => hrange _ (h.range hf)⟩

/-- Functions whose numbers are in ranges that do not meet. -/
theorem append (h : AreNumbered range fs) (h' : AreNumbered range' fs')
    (hdisjoint : ∀ i, range i → ¬ range' i) :
  AreNumbered (fun i => range i ∨ range' i) (fs ++ fs')
  := by
  constructor
  · rw [List.map_append, List.nodup_append]
    refine ⟨h.nodup, h'.nodup, ?_⟩
    rintro i hi _ hi' rfl
    obtain ⟨f, hf, rfl⟩ := List.mem_map.mp hi
    obtain ⟨f', hf', heq⟩ := List.mem_map.mp hi'
    apply hdisjoint _ (h.range hf)
    rw [← heq]
    exact h'.range hf'
  · intro f hf
    rcases List.mem_append.mp hf with hf | hf
    · exact .inl (h.range hf)
    · exact .inr (h'.range hf)

/-- One more function, whose number is none of the others. -/
theorem cons (h : AreNumbered range fs) {n : Int} (hn : ¬ range n) (p : Site) :
  AreNumbered (fun i => i = n ∨ range i) ((n, p) :: fs)
  := by
  constructor
  · rw [List.map_cons, List.nodup_cons]
    refine ⟨?_, h.nodup⟩
    intro hmem
    obtain ⟨f, hf, heq⟩ := List.mem_map.mp hmem
    have hf := h.range hf
    rw [heq] at hf
    exact hn hf
  · intro f hf
    rcases List.mem_cons.mp hf with rfl | hf
    · exact .inl rfl
    · exact .inr (h.range hf)

/-- The functions of a part, and those of the parts behind it: a trivial part is threaded before them,
and one that has to be computed first behind all that they have to compute. -/
theorem part
    {trivial : Bool} {n m d first later : Int} (hd : 0 ≤ d) (hfirst : 0 ≤ first) (hlater : 0 ≤ later)
    (hm : n + ((if trivial then d else 1) + first) ≤ m)
    (h : AreNumbered (fun i => (if trivial then n else m + later) ≤ i
      ∧ i < (if trivial then n else m + later) + d) fs)
    (h' : AreNumbered (fun i => (n + (if trivial then d else 1) ≤ i
        ∧ i < n + (if trivial then d else 1) + first) ∨ (m ≤ i ∧ i < m + later)) fs') :
  AreNumbered (fun i => (n ≤ i ∧ i < n + ((if trivial then d else 1) + first))
    ∨ (m ≤ i ∧ i < m + ((if trivial then 0 else d) + later))) (fs ++ fs')
  := by
  cases trivial with
  | true =>
    simp only [if_true] at *
    apply (h.append h' _).mono
    all_goals
      intro i hi
      omega
  | false =>
    simp only [Bool.false_eq_true, if_false] at *
    apply (h.append h' _).mono
    all_goals
      intro i hi
      omega

end AreNumbered

mutual

/-- The functions of a tree have numbers of their own, among those that threading uses up. -/
theorem areNumbered_functions :
    ∀ (p : Site) (n : Int) (t : Tree),
      AreNumbered (fun i => n ≤ i ∧ i < n + draws t) (functions p n t)
  | p, n, .abstraction params body => by
      rw [functions, draws]
      have hbody := areNumbered_functions (p ++ [0]) (n + 1) body
      have hnonneg := draws_nonneg body
      apply (hbody.cons (by omega) p).mono
      intro i hi
      omega
  | p, n, .operation op operands => by
      rw [functions, draws]
      obtain ⟨hfirst, hlater⟩ := drawsIn_nonneg operands
      apply (areNumbered_functionsIn p 0 n _ operands (by omega)).mono
      intro i hi
      omega
  | p, n, .conditional .trivial test conseq alt => by
      rw [functions, draws]
      have htest := areNumbered_functions (p ++ [0]) n test
      have hconseq := areNumbered_functions (p ++ [1]) (n + draws test) conseq
      have halt := areNumbered_functions (p ++ [2]) (n + draws test + draws conseq) alt
      have hd := draws_nonneg test
      have hd' := draws_nonneg conseq
      have hd'' := draws_nonneg alt
      apply (htest.append (hconseq.append halt _) _).mono
      all_goals
        intro i hi
        omega
  | p, n, .conditional .serious test conseq alt
  | p, n, .conditional .plain test conseq alt
  | p, n, .conditional .converted test conseq alt => by
      rw [functions, draws]
      · have hconseq := areNumbered_functions (p ++ [1]) n conseq
        have halt := areNumbered_functions (p ++ [2]) (n + draws conseq) alt
        have htest := areNumbered_functions (p ++ [0])
          (n + draws conseq + draws alt + if test.isTrivial then 0 else 1) test
        have hd := draws_nonneg test
        have hd' := draws_nonneg conseq
        have hd'' := draws_nonneg alt
        have hname : (0 : Int) ≤ if test.isTrivial then 0 else 1 := by
          split
          · omega
          · omega
        generalize (if test.isTrivial then 0 else 1 : Int) = name at *
        apply (hconseq.append (halt.append htest _) _).mono
        all_goals
          intro i hi
          omega
      all_goals
        intro h
        contradiction
  | p, n, .application rator rands => by
      rw [functions, draws_application, drawsFirst, drawsLater]
      have hrator := areNumbered_functions (p ++ [0]) (if rator.isTrivial then n
        else n + ((if rator.isTrivial then draws rator else 1) + drawsFirst rands)
          + drawsLater rands) rator
      have hrands := areNumbered_functionsIn p 1 (n + if rator.isTrivial then draws rator else 1)
        (n + ((if rator.isTrivial then draws rator else 1) + drawsFirst rands)) rands (by omega)
      have hd := draws_nonneg rator
      obtain ⟨hfirst, hlater⟩ := drawsIn_nonneg rands
      apply (AreNumbered.part hd hfirst hlater (Int.le_refl _) hrator hrands).mono
      intro i hi
      cases htrivial : rator.isTrivial
      all_goals
        simp only [htrivial, if_true, Bool.false_eq_true, if_false] at hi ⊢
        omega
  | p, n, .literal _ | p, n, .var _ | p, n, .definition _ _ _ _ | p, n, .blank
  | p, n, .continuation _ _ | p, n, .resumption _ _ | p, n, .entry _ _ _ _ _
  | p, n, .program _ _ | p, n, .nothing | p, n, .number _ | p, n, .text _
  | p, n, .list _ | p, n, .tuple _ => by
      simp only [functions]
      exact .nil

/-- The functions of some parts have numbers of their own, among those that threading uses up
first and later. -/
theorem areNumbered_functionsIn :
    ∀ (p : Site) (i : Nat) (n m : Int) (ts : List Tree), n + drawsFirst ts ≤ m →
      AreNumbered (fun j => (n ≤ j ∧ j < n + drawsFirst ts) ∨ (m ≤ j ∧ j < m + drawsLater ts))
        (functionsIn p i n m ts)
  | p, i, n, m, [], hm => by
      rw [functionsIn]
      exact .nil
  | p, i, n, m, t :: ts, hm => by
      rw [drawsFirst] at hm
      rw [functionsIn, drawsFirst, drawsLater]
      obtain ⟨hfirst, hlater⟩ := drawsIn_nonneg ts
      exact .part (draws_nonneg t) hfirst hlater hm (areNumbered_functions _ _ t)
        (areNumbered_functionsIn p (i + 1) _ m ts (by omega))

end

/-! ### Nodes and functions of a program -/

/-- The node of a program at the end of a path. -/
def node (forms : List Tree) : Site → Option Tree
  | [] => none
  | i :: p => forms[i]? >>= p.foldlM fun t j => t.children[j]?

/-- Whether a tree is a function of the source. -/
def isFunction : Tree → Bool
  | abstraction _ _ => true
  | definition _ _ _ _ => true
  | _ => false

/-- The functions of some forms at top level that are converted from the number `n` on: the numbers
of their continuations, with their paths. The first form has the number `i`. A form that is no
definition is the body of the entry, whose continuation has a number too. -/
def formFunctions (i : Nat) (n : Int) : List Tree → List (Int × Site)
  | [] => []
  | definition _ _ body _ :: forms =>
    (n + 1, [i]) :: (functions [i, 0] (n + 2) body
      ++ formFunctions (i + 1) (n + 2 + draws body) forms)
  | t :: forms => functions [i] (n + 2) t ++ formFunctions (i + 1) (n + 2 + draws t) forms

/-- The functions of a conditional are those of its test and its branches. -/
theorem mem_functions_conditional {p : Site} {n : Int} {sort : Conditional} {test conseq alt : Tree}
    {f : Int × Site} (hf : f ∈ functions p n (conditional sort test conseq alt)) :
  (∃ m, f ∈ functions (p ++ [0]) m test) ∨ (∃ m, f ∈ functions (p ++ [1]) m conseq)
    ∨ ∃ m, f ∈ functions (p ++ [2]) m alt
  := by
  by_cases hsort : sort = .trivial
  · rw [hsort, functions, List.mem_append, List.mem_append] at hf
    obtain hf | hf | hf := hf
    · exact .inl ⟨_, hf⟩
    · exact .inr (.inl ⟨_, hf⟩)
    · exact .inr (.inr ⟨_, hf⟩)
  · rw [functions, List.mem_append, List.mem_append] at hf
    · obtain hf | hf | hf := hf
      · exact .inr (.inl ⟨_, hf⟩)
      · exact .inr (.inr ⟨_, hf⟩)
      · exact .inl ⟨_, hf⟩
    · exact hsort

section Nodes

variable {forms : List Tree}

/-- One step further down. -/
theorem node_concat {p : Site} {t : Tree} (h : node forms p = some t) (i : Nat) :
  node forms (p ++ [i]) = t.children[i]?
  := by
  cases p with
  | nil => contradiction
  | cons j p =>
    obtain ⟨root, hroot, hp⟩ := Option.bind_eq_some_iff.mp h
    rw [List.cons_append, node, hroot]
    change (p ++ [i]).foldlM (fun t j => t.children[j]?) root = _
    rw [List.foldlM_append, hp]
    exact bind_pure t.children[i]?

mutual

/-- The functions of a tree are functions of the program that it stands in. -/
theorem isFunction_of_mem_functions :
    ∀ {p : Site} {n : Int} {t : Tree}, node forms p = some t → ∀ f ∈ functions p n t,
      ∃ u, node forms f.2 = some u ∧ u.isFunction
  | p, n, .abstraction params body, h, f, hf => by
      rw [functions] at hf
      rcases List.mem_cons.mp hf with rfl | hf
      · exact ⟨_, h, rfl⟩
      · exact isFunction_of_mem_functions (node_concat h 0) f hf
  | p, n, .operation op operands, h, f, hf => by
      rw [functions] at hf
      apply isFunction_of_mem_functionsIn _ f hf
      intro j t ht
      rw [node_concat h, Nat.zero_add]
      exact ht
  | p, n, .conditional sort test conseq alt, h, f, hf => by
      obtain ⟨m, hf⟩ | ⟨m, hf⟩ | ⟨m, hf⟩ := mem_functions_conditional hf
      · exact isFunction_of_mem_functions (node_concat h 0) f hf
      · exact isFunction_of_mem_functions (node_concat h 1) f hf
      · exact isFunction_of_mem_functions (node_concat h 2) f hf
  | p, n, .application rator rands, h, f, hf => by
      rw [functions] at hf
      rcases List.mem_append.mp hf with hf | hf
      · exact isFunction_of_mem_functions (node_concat h 0) f hf
      · apply isFunction_of_mem_functionsIn _ f hf
        intro j t ht
        rw [node_concat h, Nat.add_comm]
        exact ht
  | p, n, .literal _, h, f, hf | p, n, .var _, h, f, hf | p, n, .definition _ _ _ _, h, f, hf
  | p, n, .blank, h, f, hf | p, n, .continuation _ _, h, f, hf | p, n, .resumption _ _, h, f, hf
  | p, n, .entry _ _ _ _ _, h, f, hf | p, n, .program _ _, h, f, hf | p, n, .nothing, h, f, hf
  | p, n, .number _, h, f, hf | p, n, .text _, h, f, hf | p, n, .list _, h, f, hf
  | p, n, .tuple _, h, f, hf => by
      simp only [functions] at hf
      contradiction

/-- The functions of some children of a node are functions of the program that it stands in. -/
theorem isFunction_of_mem_functionsIn :
    ∀ {p : Site} {i : Nat} {n m : Int} {ts : List Tree},
      (∀ j t, ts[j]? = some t → node forms (p ++ [i + j]) = some t) →
        ∀ f ∈ functionsIn p i n m ts, ∃ u, node forms f.2 = some u ∧ u.isFunction
  | p, i, n, m, [], h, f, hf => by
      rw [functionsIn] at hf
      contradiction
  | p, i, n, m, t :: ts, h, f, hf => by
      rw [functionsIn] at hf
      rcases List.mem_append.mp hf with hf | hf
      · exact isFunction_of_mem_functions (h 0 t rfl) f hf
      · apply isFunction_of_mem_functionsIn _ f hf
        intro j u hu
        rw [Nat.add_assoc, Nat.add_comm 1 j]
        exact h (j + 1) u hu

end

/-- The functions of some forms of a program are functions of the program. -/
theorem isFunction_of_mem_formFunctions (i : Nat) (n : Int) (ts : List Tree)
    (h : ∀ j t, ts[j]? = some t → forms[i + j]? = some t) :
  ∀ f ∈ formFunctions i n ts, ∃ u, node forms f.2 = some u ∧ u.isFunction
  := by
  have hnode : ∀ {i t}, forms[i]? = some t → node forms [i] = some t := by
    intro i t ht
    rw [node, ht]
    rfl
  have htail : ∀ {i t ts}, (∀ j u, (t :: ts)[j]? = some u → forms[i + j]? = some u) →
      ∀ j u, ts[j]? = some u → forms[i + 1 + j]? = some u := by
    intro i t ts h j u hu
    rw [Nat.add_assoc, Nat.add_comm 1 j]
    exact h (j + 1) u hu
  fun_induction formFunctions i n ts with
  | case1 i n =>
    intro f hf
    contradiction
  | case2 i n name params body own ts ih =>
    intro f hf
    have hfirst := hnode (h 0 _ rfl)
    rcases List.mem_cons.mp hf with rfl | hf
    · exact ⟨_, hfirst, rfl⟩
    rcases List.mem_append.mp hf with hf | hf
    · exact isFunction_of_mem_functions (node_concat hfirst 0) f hf
    · exact ih (htail h) f hf
  | case3 i n t ts _ ih =>
    intro f hf
    rcases List.mem_append.mp hf with hf | hf
    · exact isFunction_of_mem_functions (hnode (h 0 _ rfl)) f hf
    · exact ih (htail h) f hf

end Nodes

end Springboard.Tree
