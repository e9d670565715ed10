import Mathlib.Data.Int.Order.Basic
import Mathlib.Order.Basic
import Springboard.Proofs.FreshNames
import Springboard.Proofs.Renaming
import Springboard.Tree.Abstract
import Springboard.Tree.Convert

/-!
# Threading a continuation

Conversion to explicit continuations, followed by making the continuations functions, as one total
function on trees. It takes the number of the next fresh name and returns the number after the
last that it used. On surface trees without definitions inside, the two stages of the compiler
succeed and have this result.
-/

namespace Springboard.Tree

open NameSource

/-- A value, handed to a continuation if there is one; `ak` names the helper that hands it on. -/
def handed (ak : String) (k? : Option Tree) (value : Tree) : Tree :=
  match k? with
  | some k => application (var ak) [k, value]
  | none => value

mutual

/-- A tree with a continuation threaded through it, from the number `n` on. -/
def threaded (ak : String) (k? : Option Tree) : Tree → Int → Tree × Int
  | literal value, n => (handed ak k? (literal value), n)
  | var x, n => (handed ak k? (var x), n)
  | abstraction params body, n =>
    let k := nameOf "k" n
    let body' := threaded ak (some (var k)) body (n + 1)
    (handed ak k? (abstraction (params ++ [k]) body'.1), body'.2)
  | operation op operands, n =>
    let parts := threadedParts ak operands n
    threadedPending ak operands parts.1.2 (handed ak k? (operation op parts.1.1)) parts.2
  | conditional .trivial test conseq alt, n =>
    let test' := threaded ak none test n
    let conseq' := threaded ak none conseq test'.2
    let alt' := threaded ak none alt conseq'.2
    (handed ak k? (conditional .converted test'.1 conseq'.1 alt'.1), alt'.2)
  | conditional _ test conseq alt, n =>
    let conseq' := threaded ak k? conseq n
    let alt' := threaded ak k? alt conseq'.2
    if test.isTrivial then
      let test' := threaded ak none test alt'.2
      (conditional .converted test'.1 conseq'.1 alt'.1, test'.2)
    else
      let s := nameOf "s" alt'.2
      let k := abstraction [s] (conditional .converted (var s) conseq'.1 alt'.1)
      threaded ak (some k) test (alt'.2 + 1)
  | application rator rands, n =>
    if rator.isTrivial then
      let rator' := threaded ak none rator n
      let parts := threadedParts ak rands rator'.2
      threadedPending ak rands parts.1.2 (application rator'.1 (parts.1.1 ++ k?.toList)) parts.2
    else
      let s := nameOf "s" n
      let parts := threadedParts ak rands (n + 1)
      let rest := threadedPending ak rands parts.1.2
        (application (var s) (parts.1.1 ++ k?.toList)) parts.2
      threaded ak (some (abstraction [s] rest.1)) rator rest.2
  | t, n => (t, n)

/-- The values that stand for some parts, with the names of those that have to be computed
first. -/
def threadedParts (ak : String) : List Tree → Int → (List Tree × List (Option String)) × Int
  | [], n => (([], []), n)
  | t :: ts, n =>
    if t.isTrivial then
      let value := threaded ak none t n
      let rest := threadedParts ak ts value.2
      ((value.1 :: rest.1.1, none :: rest.1.2), rest.2)
    else
      let s := nameOf "s" n
      let rest := threadedParts ak ts (n + 1)
      ((var s :: rest.1.1, some s :: rest.1.2), rest.2)

/-- The computations of the parts that need one, in front of a tree. -/
def threadedPending (ak : String) : List Tree → List (Option String) → Tree → Int → Tree × Int
  | t :: ts, some s :: pending, result, n =>
    let rest := threadedPending ak ts pending result n
    threaded ak (some (abstraction [s] rest.1)) t rest.2
  | _ :: ts, none :: pending, result, n => threadedPending ak ts pending result n
  | _, _, result, n => (result, n)

end

/-- The call of the first of some parts with the others and a continuation. -/
def applied (k? : Option Tree) : List Tree → Tree
  | [] => blank
  | function :: args => application function (args ++ k?.toList)

/-- The choice between two trees by the first of some parts. -/
def chosen (conseq alt : Tree) : List Tree → Tree
  | [] => blank
  | test :: _ => conditional .converted test conseq alt

/-- In an application the function is a part like the arguments. -/
theorem threaded_application
    (ak : String) (k? : Option Tree) (rator : Tree) (rands : List Tree) (n : Int) :
  threaded ak k? (application rator rands) n
    = threadedPending ak (rator :: rands) (threadedParts ak (rator :: rands) n).1.2
        (applied k? (threadedParts ak (rator :: rands) n).1.1)
        (threadedParts ak (rator :: rands) n).2
  := by
  rw [threaded, threadedParts]
  split
  · rw [threadedPending, applied]
  · rw [threadedPending, applied]

/-- In a conditional that needs evaluation the test is a part, and both branches are given the
continuation. -/
theorem threaded_conditional
    (ak : String) (k? : Option Tree) (test conseq alt : Tree) (n : Int) :
  threaded ak k? (conditional .serious test conseq alt) n
    = threadedPending ak [test]
        (threadedParts ak [test] (threaded ak k? alt (threaded ak k? conseq n).2).2).1.2
        (chosen (threaded ak k? conseq n).1 (threaded ak k? alt (threaded ak k? conseq n).2).1
          (threadedParts ak [test] (threaded ak k? alt (threaded ak k? conseq n).2).2).1.1)
        (threadedParts ak [test] (threaded ak k? alt (threaded ak k? conseq n).2).2).2
  := by
  rw [threaded, threadedParts]
  · split
    · simp only [threadedParts, threadedPending, chosen]
    · simp only [threadedParts, threadedPending, chosen]
  · intro h
    contradiction

/-- There is one value for each part. -/
theorem length_threadedParts (ak : String) (ts : List Tree) (n : Int) :
  (threadedParts ak ts n).1.1.length = ts.length
  := by
  induction ts generalizing n with
  | nil => rw [threadedParts]
  | cons t ts ih =>
    rw [threadedParts]
    split
    · exact congrArg (· + 1) (ih _)
    · exact congrArg (· + 1) (ih _)

/-- One part has one value. -/
theorem exists_threadedParts_singleton (ak : String) (t : Tree) (n : Int) :
  ∃ v, (threadedParts ak [t] n).1.1 = [v]
  := by
  apply List.length_eq_one_iff.mp
  apply length_threadedParts

/-- Parts of which there is a first have a first value. -/
theorem exists_threadedParts_cons (ak : String) (t : Tree) (ts : List Tree) (n : Int) :
  ∃ v vs, (threadedParts ak (t :: ts) n).1.1 = v :: vs
  := by
  apply List.exists_cons_of_length_eq_add_one
  apply length_threadedParts

mutual

/-- Threading uses up numbers. -/
theorem le_threaded (ak : String) :
    ∀ (k? : Option Tree) (t : Tree) (n : Int), n ≤ (threaded ak k? t n).2
  | k?, .abstraction params body, n => by
      rw [threaded]
      have h := le_threaded ak (some (var (nameOf "k" n))) body (n + 1)
      dsimp only
      omega
  | k?, .operation op operands, n => by
      rw [threaded]
      exact (le_threadedParts ak operands n).trans (le_threadedPending ak operands _ _ _)
  | k?, .conditional .trivial test conseq alt, n => by
      rw [threaded]
      exact ((le_threaded ak none test n).trans (le_threaded ak none conseq _)).trans
        (le_threaded ak none alt _)
  | k?, .conditional .serious test conseq alt, n
  | k?, .conditional .plain test conseq alt, n
  | k?, .conditional .converted test conseq alt, n => by
      rw [threaded]
      · have h := (le_threaded ak k? conseq n).trans (le_threaded ak k? alt _)
        dsimp only
        split
        · exact h.trans (le_threaded ak none test _)
        · have htest := fun k => le_threaded ak k test
            ((threaded ak k? alt (threaded ak k? conseq n).2).2 + 1)
          exact (h.trans (by omega)).trans (htest _)
      · intro h
        contradiction
  | k?, .application rator rands, n => by
      rw [threaded]
      split
      · exact ((le_threaded ak none rator n).trans (le_threadedParts ak rands _)).trans
          (le_threadedPending ak rands _ _ _)
      · have hparts := (Int.le_add_one (le_refl n)).trans (le_threadedParts ak rands (n + 1))
        exact (hparts.trans (le_threadedPending ak rands _ _ _)).trans (le_threaded ak _ rator _)
  | k?, .literal _, n | k?, .var _, n | k?, .definition _ _ _ _, n | k?, .blank, n
  | k?, .continuation _ _, n | k?, .resumption _ _, n | k?, .entry _ _ _ _ _, n
  | k?, .program _ _, n | k?, .nothing, n | k?, .number _, n | k?, .text _, n | k?, .list _, n
  | k?, .tuple _, n => by
      simp only [threaded]
      exact le_refl n

/-- Threading parts uses up numbers. -/
theorem le_threadedParts (ak : String) :
    ∀ (ts : List Tree) (n : Int), n ≤ (threadedParts ak ts n).2
  | [], n => by
      rw [threadedParts]
  | t :: ts, n => by
      rw [threadedParts]
      split
      · exact (le_threaded ak none t n).trans (le_threadedParts ak ts _)
      · exact (Int.le_add_one (le_refl n)).trans (le_threadedParts ak ts _)

/-- Threading what is computed first uses up numbers. -/
theorem le_threadedPending (ak : String) :
    ∀ (ts : List Tree) (pending : List (Option String)) (result : Tree) (n : Int),
      n ≤ (threadedPending ak ts pending result n).2
  | [], pending, result, n => by
      simp only [threadedPending]
      exact le_refl n
  | t :: ts, [], result, n => by
      simp only [threadedPending]
      exact le_refl n
  | t :: ts, none :: pending, result, n => by
      rw [threadedPending]
      exact le_threadedPending ak ts pending result n
  | t :: ts, some s :: pending, result, n => by
      rw [threadedPending]
      exact (le_threadedPending ak ts pending result n).trans (le_threaded ak _ t _)

end

/-! ### What the stages of the compiler do -/

/-- After a step that draws names and succeeds, a sequence goes on with the names that are left. -/
theorem naming_bind
    {α β : Type} {x : Naming α} {f : α → Naming β} {names names' : NameSource} {a : α}
    (h : x names = .ok (a, names')) :
  (x >>= f) names = f a names'
  := by
  simp only [bind, StateT.bind, h, Except.bind]

/-- A fresh name is made of the next number. -/
theorem freshName_eq (base : String) (start n : Int) :
  freshName base ⟨start, n⟩ = .ok (nameOf base n, ⟨start, n + 1⟩)
  := by
  rfl

/-- A pure step draws no names. -/
theorem naming_pure {α : Type} (a : α) (names : NameSource) :
  (pure a : Naming α) names = .ok (a, names)
  := by
  rfl

/-- Making continuations functions in a list of trees, tree by tree. -/
theorem abstractAll_append
    {ak : String} {ts us ts' us' : List Tree}
    (hts : abstractAll ak ts = .ok ts') (hus : abstractAll ak us = .ok us') :
  abstractAll ak (ts ++ us) = .ok (ts' ++ us')
  := by
  induction ts generalizing ts' with
  | nil =>
    rw [abstractAll] at hts
    cases hts
    exact hus
  | cons t ts ih =>
    rw [abstractAll] at hts
    simp only [Except.bind_eq_ok] at hts
    obtain ⟨first, hfirst, rest, hrest, h⟩ := hts
    cases h
    rw [List.cons_append, abstractAll, hfirst, ih hrest]
    rfl

/-- The continuations of `k?`, made functions, are those of `k'?`. -/
def Abstracts (ak : String) (k? k'? : Option Tree) : Prop :=
  k?.map (abstractK ak) = k'?.map .ok

/-- A value that is delivered becomes one that is handed on. -/
theorem Abstracts.deliver
    {ak : String} {k? k'? : Option Tree} (hk : Abstracts ak k? k'?) {value value' : Tree}
    (hvalue : abstractK ak value = .ok value') :
  abstractK ak (deliver k? value) = .ok (handed ak k'? value')
  := by
  cases k? with
  | none =>
    cases k'? with
    | none => exact hvalue
    | some k' => contradiction
  | some k =>
    cases k'? with
    | none => contradiction
    | some k' =>
      have hk' : abstractK ak k = .ok k' := Option.some.inj hk
      rw [Tree.deliver, abstractK, hk', hvalue]
      rfl

/-- The continuation that is given along becomes a function like any other argument. -/
theorem Abstracts.toList {ak : String} {k? k'? : Option Tree} (hk : Abstracts ak k? k'?) :
  abstractAll ak k?.toList = .ok k'?.toList
  := by
  cases k? with
  | none =>
    cases k'? with
    | none => rfl
    | some k' => contradiction
  | some k =>
    cases k'? with
    | none => contradiction
    | some k' =>
      have hk' : abstractK ak k = .ok k' := Option.some.inj hk
      rw [Option.toList, Option.toList, abstractAll, hk', abstractAll]
      rfl

/-- Conversion of a tree succeeds, and with its continuations made functions it is the threaded
tree. Without a continuation the tree has to be trivial. -/
def Converts (ak : String) (t : Tree) : Prop :=
  ∀ (k? k'? : Option Tree) (start n : Int),
    (k? = none → t.isTrivial) → Abstracts ak k? k'? →
      ∃ u, convertNode k? t ⟨start, n⟩ = .ok (u, ⟨start, (threaded ak k'? t n).2⟩)
        ∧ abstractK ak u = .ok (threaded ak k'? t n).1

/-- A trivial tree that converts does so without a continuation. -/
theorem Converts.value {ak : String} {t : Tree} (h : Converts ak t) (ht : t.isTrivial)
    (start n : Int) :
  ∃ u, convertNode none t ⟨start, n⟩ = .ok (u, ⟨start, (threaded ak none t n).2⟩)
    ∧ abstractK ak u = .ok (threaded ak none t n).1
  := by
  apply h none none start n
  · intro _
    exact ht
  · rfl

/-- A tree that converts does so in front of a continuation that waits for its value. -/
theorem Converts.before
    {ak : String} {t : Tree} (h : Converts ak t) {s : String} {rest rest' : Tree}
    (hrest : abstractK ak rest = .ok rest') (start n : Int) :
  ∃ u, convertNode (some (continuation s rest)) t ⟨start, n⟩
      = .ok (u, ⟨start, (threaded ak (some (abstraction [s] rest')) t n).2⟩)
    ∧ abstractK ak u = .ok (threaded ak (some (abstraction [s] rest')) t n).1
  := by
  apply h _ _ start n
  · intro h
    contradiction
  · rw [Abstracts, Option.map_some, Option.map_some, abstractK, hrest]
    rfl

section Lists

variable {ak : String} {ts : List Tree} (hts : ∀ t ∈ ts, Converts ak t)
include hts

/-- The parts of some trees that convert. -/
theorem convertParts_eq (start n : Int) :
  ∃ us, convertParts ts ⟨start, n⟩
      = .ok ((us, (threadedParts ak ts n).1.2), ⟨start, (threadedParts ak ts n).2⟩)
    ∧ abstractAll ak us = .ok (threadedParts ak ts n).1.1
  := by
  induction ts generalizing n with
  | nil => exact ⟨[], rfl, rfl⟩
  | cons t ts ih =>
    have ih := ih fun t ht => hts t (List.mem_cons_of_mem _ ht)
    rw [convertParts, threadedParts]
    split
    · rename_i htrivial
      obtain ⟨u, hu, hu'⟩ := (hts t List.mem_cons_self).value htrivial start n
      obtain ⟨us, hus, hus'⟩ := ih (threaded ak none t n).2
      use u :: us
      constructor
      · rw [naming_bind hu, naming_bind hus]
        rfl
      · rw [abstractAll, hu', hus']
        rfl
    · obtain ⟨us, hus, hus'⟩ := ih (n + 1)
      use var (nameOf "s" n) :: us
      constructor
      · rw [naming_bind (freshName_eq "s" start n), naming_bind hus]
        rfl
      · rw [abstractAll, abstractK, hus']
        rfl

/-- Trivial trees that convert have their values as parts. -/
theorem convertValues_eq (htrivial : allTrivial ts) (start n : Int) :
  ∃ us, convertValues ts ⟨start, n⟩ = .ok (us, ⟨start, (threadedParts ak ts n).2⟩)
    ∧ abstractAll ak us = .ok (threadedParts ak ts n).1.1
  := by
  induction ts generalizing n with
  | nil => exact ⟨[], rfl, rfl⟩
  | cons t ts ih =>
    rw [allTrivial, Bool.and_eq_true] at htrivial
    have ih := ih (fun t ht => hts t (List.mem_cons_of_mem _ ht)) htrivial.2
    obtain ⟨u, hu, hu'⟩ := (hts t List.mem_cons_self).value htrivial.1 start n
    obtain ⟨us, hus, hus'⟩ := ih (threaded ak none t n).2
    use u :: us
    rw [convertValues, threadedParts, if_pos htrivial.1]
    constructor
    · rw [naming_bind hu, naming_bind hus]
      rfl
    · rw [abstractAll, hu', hus']
      rfl

/-- The computations of parts that convert, in front of a tree. -/
theorem convertPending_eq
    (pending : List (Option String)) {result result' : Tree}
    (hresult : abstractK ak result = .ok result') (start n : Int) :
  ∃ u, convertPending ts pending result ⟨start, n⟩
      = .ok (u, ⟨start, (threadedPending ak ts pending result' n).2⟩)
    ∧ abstractK ak u = .ok (threadedPending ak ts pending result' n).1
  := by
  induction ts generalizing pending with
  | nil =>
    use result
    rw [convertPending, threadedPending]
    · exact ⟨rfl, hresult⟩
    all_goals intros; contradiction
  | cons t ts ih =>
    have ih := ih fun t ht => hts t (List.mem_cons_of_mem _ ht)
    match pending with
    | [] =>
      use result
      rw [convertPending, threadedPending]
      · exact ⟨rfl, hresult⟩
      all_goals intros; contradiction
    | none :: pending =>
      rw [convertPending, threadedPending]
      exact ih pending
    | some s :: pending =>
      rw [convertPending, threadedPending]
      obtain ⟨rest, hrest, hrest'⟩ := ih pending
      rw [naming_bind hrest]
      apply (hts t List.mem_cons_self).before hrest'

end Lists

/-- Trivial parts leave nothing to be computed first. -/
theorem threadedPending_of_allTrivial
    (ak : String) {ts : List Tree} (h : allTrivial ts) (result : Tree) (n m : Int) :
  threadedPending ak ts (threadedParts ak ts n).1.2 result m = (result, m)
  := by
  induction ts generalizing n with
  | nil =>
    rw [threadedPending]
    all_goals intros; contradiction
  | cons t ts ih =>
    rw [allTrivial, Bool.and_eq_true] at h
    rw [threadedParts, if_pos h.1, threadedPending]
    exact ih h.2 _

/-- A trivial tree stays a value, which is handed to the continuation. -/
theorem threaded_of_isTrivial
    (ak : String) {nested : Bool} {t : Tree} (h : Surface nested t) (htrivial : t.isTrivial)
    (k? : Option Tree) (n : Int) :
  threaded ak k? t n = (handed ak k? (threaded ak none t n).1, (threaded ak none t n).2)
  := by
  cases h with
  | literal value => simp only [threaded, handed]
  | var x => simp only [threaded, handed]
  | operation _ _ =>
    rw [isTrivial] at htrivial
    simp only [threaded, threadedPending_of_allTrivial ak htrivial, handed]
  | trivialConditional _ _ _ _ => simp only [threaded, handed]
  | seriousConditional _ _ _ => contradiction
  | abstraction params _ => simp only [threaded, handed]
  | definition name params _ _ => contradiction
  | application _ _ => contradiction

/-- Conversion of an operation on values. -/
theorem convertNode_operation_of_allTrivial
    {operands : List Tree} (h : allTrivial operands) (k? : Option Tree) (op : Operator) :
  convertNode k? (operation op operands) =
    (do
      let operands ← convertValues operands
      pure (deliver k? (operation op operands)))
  := by
  exact if_pos h

/-- Conversion of an operation that has to compute an operand. -/
theorem convertNode_operation_of_not_allTrivial
    {operands : List Tree} (h : ¬ allTrivial operands) (k : Tree) (op : Operator) :
  convertNode (some k) (operation op operands) =
    (do
      let parts ← convertParts operands
      convertPending operands parts.2 (resumption k (operation op parts.1)))
  := by
  exact if_neg h

/-- Conversion of an application whose function is a value. -/
theorem convertNode_application_of_isTrivial
    {rator : Tree} (h : rator.isTrivial) (k : Tree) (rands : List Tree) :
  convertNode (some k) (application rator rands) =
    (do
      let function ← convertNode none rator
      let parts ← convertParts rands
      convertPending rands parts.2 (application function (parts.1 ++ [k])))
  := by
  exact if_pos h

/-- Conversion of an application whose function has to be computed. -/
theorem convertNode_application_of_not_isTrivial
    {rator : Tree} (h : ¬ rator.isTrivial) (k : Tree) (rands : List Tree) :
  convertNode (some k) (application rator rands) =
    (do
      let s ← freshName "s"
      let parts ← convertParts rands
      let rest ← convertPending rands parts.2 (application (var s) (parts.1 ++ [k]))
      convertNode (some (continuation s rest)) rator)
  := by
  exact if_neg h

/-- Surface trees without definitions inside convert. -/
theorem converts_of_surface (ak : String) {t : Tree} (h : Surface false t) : Converts ak t := by
  induction h with
  | literal value =>
    intro k? k'? start n _ hk
    rw [convertNode, threaded]
    exact ⟨_, rfl, hk.deliver rfl⟩
  | var x =>
    intro k? k'? start n _ hk
    rw [convertNode, threaded]
    exact ⟨_, rfl, hk.deliver rfl⟩
  | @abstraction params body _ ih =>
    intro k? k'? start n _ hk
    have hbound : Abstracts ak (some (var (nameOf "k" n))) (some (var (nameOf "k" n))) := rfl
    obtain ⟨u, hu, hu'⟩ := ih _ _ start (n + 1) (by simp) hbound
    rw [convertNode, naming_bind (freshName_eq "k" start n), naming_bind hu, threaded]
    refine ⟨_, rfl, hk.deliver ?_⟩
    rw [abstractK, hu']
    rfl
  | @operation op operands _ _ ih =>
    intro k? k'? start n htrivial hk
    rw [threaded]
    by_cases hall : allTrivial operands
    · obtain ⟨us, hus, hus'⟩ := convertValues_eq ih hall start n
      rw [convertNode_operation_of_allTrivial hall, naming_bind hus,
        threadedPending_of_allTrivial ak hall]
      refine ⟨_, rfl, hk.deliver ?_⟩
      rw [abstractK, hus']
      rfl
    · cases k? with
      | none => exact absurd (htrivial rfl) hall
      | some k =>
        obtain ⟨us, hus, hus'⟩ := convertParts_eq ih start n
        rw [convertNode_operation_of_not_allTrivial hall, naming_bind hus]
        apply convertPending_eq ih
        apply hk.deliver
        rw [abstractK, hus']
        rfl
  | @trivialConditional test conseq alt htrivial _ _ _ ihtest ihconseq ihalt =>
    intro k? k'? start n _ hk
    obtain ⟨test', htest, htest'⟩ := ihtest.value htrivial.1 start n
    obtain ⟨conseq', hconseq, hconseq'⟩ := ihconseq.value htrivial.2.1 start _
    obtain ⟨alt', halt, halt'⟩ := ihalt.value htrivial.2.2 start _
    rw [convertNode, naming_bind htest, naming_bind hconseq, naming_bind halt, threaded]
    refine ⟨_, rfl, hk.deliver ?_⟩
    rw [abstractK, htest', hconseq', halt']
    rfl
  | @seriousConditional test conseq alt _ _ _ ihtest ihconseq ihalt =>
    intro k? k'? start n htrivial hk
    cases k? with
    | none => exact absurd (htrivial rfl) (by simp [isTrivial])
    | some k =>
      obtain ⟨conseq', hconseq, hconseq'⟩ := ihconseq _ _ start n (by simp) hk
      obtain ⟨alt', halt, halt'⟩ := ihalt _ _ start _ (by simp) hk
      rw [convertNode, naming_bind hconseq, naming_bind halt, threaded]
      · split
        · rename_i htest
          obtain ⟨test', htest, htest'⟩ := ihtest.value htest start _
          rw [naming_bind htest]
          refine ⟨_, rfl, ?_⟩
          rw [abstractK, htest', hconseq', halt']
          rfl
        · rw [naming_bind (freshName_eq "s" start _)]
          apply ihtest.before
          rw [abstractK, abstractK, hconseq', halt']
          rfl
      · intro h
        contradiction
  | definition name params hnested _ _ => contradiction
  | @application rator rands _ _ ihrator ihrands =>
    intro k? k'? start n htrivial hk
    cases k? with
    | none => exact absurd (htrivial rfl) (by simp [isTrivial])
    | some k =>
      by_cases hrator : rator.isTrivial
      · obtain ⟨function, hfunction, hfunction'⟩ := ihrator.value hrator start n
        obtain ⟨us, hus, hus'⟩ := convertParts_eq ihrands start (threaded ak none rator n).2
        rw [convertNode_application_of_isTrivial hrator, naming_bind hfunction, naming_bind hus,
          threaded, if_pos hrator]
        have hargs : abstractAll ak (us ++ [k]) = .ok _ := abstractAll_append hus' hk.toList
        apply convertPending_eq ihrands
        dsimp only
        rw [abstractK, hfunction', hargs]
        rfl
      · obtain ⟨us, hus, hus'⟩ := convertParts_eq ihrands start (n + 1)
        have hargs : abstractAll ak (us ++ [k]) = .ok _ := abstractAll_append hus' hk.toList
        have hcall : abstractK ak (application (var (nameOf "s" n)) (us ++ [k]))
            = .ok (application (var (nameOf "s" n))
                ((threadedParts ak rands (n + 1)).1.1 ++ k'?.toList)) := by
          rw [abstractK, abstractK, hargs]
          rfl
        obtain ⟨rest, hrest, hrest'⟩ := convertPending_eq ihrands
          (threadedParts ak rands (n + 1)).1.2 hcall start (threadedParts ak rands (n + 1)).2
        rw [convertNode_application_of_not_isTrivial hrator,
          naming_bind (freshName_eq "s" start n), naming_bind hus, naming_bind hrest, threaded,
          if_neg hrator]
        apply ihrator.before hrest'

/-! ### Definitions -/

/-- A surface tree is a node. -/
theorem isNode_of_surface {nested : Bool} {t : Tree} (h : Surface nested t) : t.isNode := by
  cases h <;> rfl

/-- A surface tree may be converted with a variable as its continuation. -/
theorem convert_eq_convertNode {nested : Bool} {t : Tree} (h : Surface nested t) (k : String) :
  convert t (some (var k)) = convertNode (some (var k)) t
  := by
  simp only [convert, isNode_of_surface h, isContinuation, Bool.not_true, Bool.false_eq_true,
    if_false]

/-- The names that a definition named `name` draws from the number `n` on, for itself and for its
continuation, and what becomes of its body. -/
def threadedBody (ak name : String) (params : List String) (body : Tree) (n : Int) : Tree × Int :=
  threaded ak (some (var (nameOf "k" (n + 1))))
    ((Renaming.under (some (name, nameOf name n)) params).tree body) (n + 2)

/-- Conversion of a definition succeeds, and with its continuations made functions its body is the
threaded one. -/
theorem convertDefinition_eq
    (ak : String) {name : String} {params : List String} {body : Tree} (own : Option String)
    (h : Surface false body) (start n : Int) :
  ∃ u, convertDefinition (definition name params body own) ⟨start, n⟩
      = .ok (u, ⟨start, (threadedBody ak name params body n).2⟩)
    ∧ abstractK ak u = .ok (definition name (params ++ [nameOf "k" (n + 1)])
        (threadedBody ak name params body n).1 (some (nameOf name n)))
  := by
  have hk : Abstracts ak (some (var (nameOf "k" (n + 1)))) (some (var (nameOf "k" (n + 1)))) := rfl
  have hnext : n + 1 + 1 = n + 2 := by omega
  have hsurface := Renaming.surface_tree h (Renaming.under (some (name, nameOf name n)) params)
  obtain ⟨u, hu, hu'⟩ := converts_of_surface ak hsurface _ _ start (n + 2) (by simp) hk
  rw [← convert_eq_convertNode hsurface] at hu
  refine ⟨definition name (params ++ [nameOf "k" (n + 1)]) u (some (nameOf name n)), ?_, ?_⟩
  · rw [convertDefinition, naming_bind (freshName_eq name start n),
      naming_bind (freshName_eq "k" start (n + 1)), hnext]
    split
    · rename_i hmem
      rw [Renaming.under_of_mem hmem, Renaming.tree_none h] at hu
      rw [naming_bind (naming_pure body _), threadedBody, Renaming.under_of_mem hmem,
        Renaming.tree_none h]
      exact naming_bind hu
    · rename_i hmem
      rw [Renaming.under_of_notMem hmem] at hu
      have hrename : (liftM (rename name (nameOf name n) body) : Naming Tree) ⟨start, n + 2⟩
          = .ok (Renaming.tree (some (name, nameOf name n)) body, ⟨start, n + 2⟩) := by
        rw [Renaming.rename_eq h]
        rfl
      rw [naming_bind hrename, threadedBody, Renaming.under_of_notMem hmem]
      exact naming_bind hu
  · rw [abstractK, hu']
    rfl

/-! ### Definitions inside are refused -/

/-- The results of a sequence of steps that draw names. -/
theorem naming_bind_eq_ok
    {α β : Type} {x : Naming α} {f : α → Naming β} {names : NameSource} {r : β × NameSource} :
  (x >>= f) names = .ok r ↔ ∃ a names', x names = .ok (a, names') ∧ f a names' = .ok r
  := by
  exact StateT.bind_eq_ok

/-- Whenever a tree is converted there is no definition in it. -/
def RefusesDefinitions (t : Tree) : Prop :=
  ∀ (k? : Option Tree) (names : NameSource) (r : Tree × NameSource),
    convertNode k? t names = .ok r → t.holdsDefinition = false

/-- There is no definition in values that are converted. -/
theorem holdsDefinition_of_convertValues
    {ts : List Tree} (hts : ∀ t ∈ ts, RefusesDefinitions t) {names : NameSource}
    {r : List Tree × NameSource} (h : convertValues ts names = .ok r) :
  anyHoldsDefinition ts = false
  := by
  induction ts generalizing names r with
  | nil => rfl
  | cons t ts ih =>
    rw [convertValues, naming_bind_eq_ok] at h
    obtain ⟨u, names₁, hu, h⟩ := h
    rw [naming_bind_eq_ok] at h
    obtain ⟨us, names₂, hus, -⟩ := h
    rw [anyHoldsDefinition, hts t List.mem_cons_self _ _ _ hu,
      ih (fun t ht => hts t (List.mem_cons_of_mem _ ht)) hus]
    rfl

/-- There is no definition in parts that are converted, each in its place or in front. -/
theorem holdsDefinition_of_convertPending
    {ts : List Tree} (hts : ∀ t ∈ ts, RefusesDefinitions t) {result : Tree}
    {names names' names'' : NameSource} {parts : List Tree × List (Option String)}
    {r : Tree × NameSource} (hparts : convertParts ts names = .ok (parts, names'))
    (hpending : convertPending ts parts.2 result names'' = .ok r) :
  anyHoldsDefinition ts = false
  := by
  induction ts generalizing names names' names'' parts r with
  | nil => rfl
  | cons t ts ih =>
    have ih := fun {a b c d e} => @ih (fun t ht => hts t (List.mem_cons_of_mem _ ht)) a b c d e
    rw [convertParts] at hparts
    split at hparts
    · simp only [naming_bind_eq_ok] at hparts
      obtain ⟨value, names₁, hvalue, rest, names₂, hrest, h⟩ := hparts
      cases h
      rw [convertPending] at hpending
      rw [anyHoldsDefinition, hts t List.mem_cons_self _ _ _ hvalue, ih hrest hpending]
      rfl
    · simp only [naming_bind_eq_ok] at hparts
      obtain ⟨s, names₁, -, rest, names₂, hrest, h⟩ := hparts
      cases h
      rw [convertPending, naming_bind_eq_ok] at hpending
      obtain ⟨u, names₃, hu, ht⟩ := hpending
      rw [anyHoldsDefinition, hts t List.mem_cons_self _ _ _ ht, ih hrest hu]
      rfl

/-- A surface tree that is converted holds no definition. -/
theorem refusesDefinitions_of_surface {t : Tree} (h : Surface true t) : RefusesDefinitions t := by
  induction h with
  | literal value =>
    intro k? names r _
    rfl
  | var x =>
    intro k? names r _
    rfl
  | abstraction params _ ih =>
    intro k? names r hr
    rw [convertNode, naming_bind_eq_ok] at hr
    obtain ⟨k, names₁, -, hr⟩ := hr
    rw [naming_bind_eq_ok] at hr
    obtain ⟨body', names₂, hbody, -⟩ := hr
    exact ih _ _ _ hbody
  | @operation op operands _ _ ih =>
    intro k? names r hr
    rw [holdsDefinition]
    by_cases hall : allTrivial operands
    · rw [convertNode_operation_of_allTrivial hall, naming_bind_eq_ok] at hr
      obtain ⟨us, names₁, hus, -⟩ := hr
      exact holdsDefinition_of_convertValues ih hus
    · cases k? with
      | none =>
        rw [convertNode.eq_def] at hr
        dsimp only at hr
        rw [if_neg hall] at hr
        contradiction
      | some k =>
        rw [convertNode_operation_of_not_allTrivial hall, naming_bind_eq_ok] at hr
        obtain ⟨parts, names₁, hparts, hpending⟩ := hr
        exact holdsDefinition_of_convertPending ih hparts hpending
  | trivialConditional _ _ _ _ ihtest ihconseq ihalt =>
    intro k? names r hr
    rw [convertNode] at hr
    simp only [naming_bind_eq_ok] at hr
    obtain ⟨test', names₁, htest, conseq', names₂, hconseq, alt', names₃, halt, -⟩ := hr
    rw [holdsDefinition, ihtest _ _ _ htest, ihconseq _ _ _ hconseq, ihalt _ _ _ halt]
    rfl
  | @seriousConditional test conseq alt _ _ _ ihtest ihconseq ihalt =>
    intro k? names r hr
    cases k? with
    | none =>
      rw [convertNode.eq_def] at hr
      contradiction
    | some k =>
      rw [convertNode, naming_bind_eq_ok] at hr
      obtain ⟨conseq', names₁, hconseq, hr⟩ := hr
      rw [naming_bind_eq_ok] at hr
      obtain ⟨alt', names₂, halt, hr⟩ := hr
      have htest : test.holdsDefinition = false := by
        split at hr
        · rw [naming_bind_eq_ok] at hr
          obtain ⟨test', names₃, htest, -⟩ := hr
          exact ihtest _ _ _ htest
        · rw [naming_bind_eq_ok] at hr
          obtain ⟨s, names₃, -, htest⟩ := hr
          exact ihtest _ _ _ htest
      rw [holdsDefinition, htest, ihconseq _ _ _ hconseq, ihalt _ _ _ halt]
      rfl
  | definition name params _ _ _ =>
    intro k? names r hr
    cases k? with
    | none =>
      rw [convertNode] at hr
      contradiction
    | some k =>
      rw [convertNode] at hr
      contradiction
  | @application rator rands _ _ ihrator ihrands =>
    intro k? names r hr
    cases k? with
    | none =>
      rw [convertNode.eq_def] at hr
      contradiction
    | some k =>
      rw [holdsDefinition]
      by_cases hrator : rator.isTrivial
      · rw [convertNode_application_of_isTrivial hrator, naming_bind_eq_ok] at hr
        obtain ⟨function, names₁, hfunction, hr⟩ := hr
        rw [naming_bind_eq_ok] at hr
        obtain ⟨parts, names₂, hparts, hpending⟩ := hr
        rw [ihrator _ _ _ hfunction, holdsDefinition_of_convertPending ihrands hparts hpending]
        rfl
      · rw [convertNode_application_of_not_isTrivial hrator, naming_bind_eq_ok] at hr
        obtain ⟨s, names₁, -, hr⟩ := hr
        rw [naming_bind_eq_ok] at hr
        obtain ⟨parts, names₂, hparts, hr⟩ := hr
        rw [naming_bind_eq_ok] at hr
        obtain ⟨rest, names₃, hpending, hfunction⟩ := hr
        rw [ihrator _ _ _ hfunction, holdsDefinition_of_convertPending ihrands hparts hpending]
        rfl

/-- The body of a definition that is converted holds no definition. -/
theorem surface_of_convertDefinition
    {name : String} {params : List String} {body : Tree} {own : Option String}
    (h : Surface true body) {names : NameSource} {r : Tree × NameSource}
    (hr : convertDefinition (definition name params body own) names = .ok r) :
  Surface false body
  := by
  apply h.of_not_holdsDefinition
  simp only [convertDefinition, naming_bind_eq_ok] at hr
  obtain ⟨self, names₁, -, k, names₂, -, hr⟩ := hr
  split at hr
  · simp only [naming_bind_eq_ok] at hr
    obtain ⟨body', names₃, hbody, u, names₄, hu, -⟩ := hr
    cases hbody
    rw [convert_eq_convertNode h] at hu
    exact refusesDefinitions_of_surface h _ _ _ hu
  · simp only [naming_bind_eq_ok] at hr
    obtain ⟨body', names₃, hbody, u, names₄, hu, -⟩ := hr
    rw [Renaming.rename_eq h] at hbody
    cases hbody
    have hrenamed := Renaming.surface_tree h (some (name, self))
    rw [convert_eq_convertNode hrenamed] at hu
    rw [← Renaming.holdsDefinition_tree (some (name, self))]
    exact refusesDefinitions_of_surface hrenamed _ _ _ hu

end Springboard.Tree
