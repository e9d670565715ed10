import Springboard.Proofs.Numbering
import Springboard.Proofs.Triviality

/-!
# Conversion visits each part once

Here is conversion once more, with a record of the trees whose conversion begins. Without the record
it is conversion itself. Main statement: what is visited in the conversion of an expression are its
parts, each as often as it stands in the expression, and nothing of the continuation that it is given,
however often that is copied. So the names that are drawn can be counted in the expression: one for
each function, and one for each part that has to be computed before the node it belongs to.
-/

namespace Springboard

/-- The names still to be drawn, and the trees that have been visited, the latest first. -/
structure Tour where
  names : NameSource
  visits : List Tree

/-- Conversions that record what they visit. -/
abbrev Touring := StateT Tour (Except Error)

namespace Touring

/-- Records a visit. -/
def visit (t : Tree) : Touring Unit :=
  modify fun tour => { tour with visits := t :: tour.visits }

/-- A fresh name. -/
def fresh (base : String) : Touring String := fun tour =>
  .ok ((tour.names.fresh base).1, { tour with names := (tour.names.fresh base).2 })

/-- Fails with a complaint about a tree. -/
def decline {α : Type} (complaint : Complaint) (subject : Tree) : Touring α :=
  throw (.malformed complaint none subject)

end Touring

namespace Tree

open Touring

mutual

/-- Conversion of a tree, with what is visited. -/
def tourNode (k? : Option Tree) (t : Tree) : Touring Tree := do
  visit t
  match t with
  | literal value => pure (deliver k? (literal value))
  | var name => pure (deliver k? (var name))
  | continuation arg body => pure (deliver k? (continuation arg body))
  | abstraction params body => do
    let k ← fresh "k"
    let body ← tourNode (some (var k)) body
    pure (deliver k? (abstraction (params ++ [k]) body))
  | operation op operands =>
    if allTrivial operands then do
      let operands ← tourValues operands
      pure (deliver k? (operation op operands))
    else
      match k? with
      | none => decline .seriousInTrivial (operation op operands)
      | some k => do
        let (parts, pending) ← tourParts operands
        tourPending operands pending (resumption k (operation op parts))
  | conditional sort test conseq alt =>
    match sort, k? with
    | .trivial, k? => do
      let test ← tourNode none test
      let conseq ← tourNode none conseq
      let alt ← tourNode none alt
      pure (deliver k? (conditional .converted test conseq alt))
    | .converted, k? => pure (deliver k? (conditional .converted test conseq alt))
    | .serious, some k => do
      let conseq ← tourNode (some k) conseq
      let alt ← tourNode (some k) alt
      if test.isTrivial then do
        let test ← tourNode none test
        pure (conditional .converted test conseq alt)
      else do
        let s ← fresh "s"
        tourNode (some (continuation s (conditional .converted (var s) conseq alt))) test
    | .plain, some _ => decline (.noRule .conversion) (conditional .plain test conseq alt)
    | sort, none => decline .seriousInTrivial (conditional sort test conseq alt)
  | application rator rands =>
    match k? with
    | none => decline .seriousInTrivial (application rator rands)
    | some k =>
      if rator.isTrivial then do
        let function ← tourNode none rator
        let (parts, pending) ← tourParts rands
        tourPending rands pending (application function (parts ++ [k]))
      else do
        let s ← fresh "s"
        let (parts, pending) ← tourParts rands
        let rest ← tourPending rands pending (application (var s) (parts ++ [k]))
        tourNode (some (continuation s rest)) rator
  | definition name params body own =>
    match k? with
    | none => decline .seriousInTrivial (definition name params body own)
    | some _ => decline .nestedDefinition (definition name params body own)
  | t =>
    if t.isNode && k?.isNone then decline .seriousInTrivial t
    else decline (.noRule .conversion) t

/-- Conversion of trivial trees, with what is visited. -/
def tourValues : List Tree → Touring (List Tree)
  | [] => pure []
  | t :: ts => do
    let first ← tourNode none t
    let rest ← tourValues ts
    pure (first :: rest)

/-- The values that stand for some parts, with what is visited. -/
def tourParts : List Tree → Touring (List Tree × List (Option String))
  | [] => pure ([], [])
  | t :: ts =>
    if t.isTrivial then do
      let value ← tourNode none t
      let (values, pending) ← tourParts ts
      pure (value :: values, none :: pending)
    else do
      let s ← fresh "s"
      let (values, pending) ← tourParts ts
      pure (var s :: values, some s :: pending)

/-- The computations of the serious parts in front of a tree, with what is visited. -/
def tourPending : List Tree → List (Option String) → Tree → Touring Tree
  | t :: ts, some s :: pending, result => do
    let result ← tourPending ts pending result
    tourNode (some (continuation s result)) t
  | _ :: ts, none :: pending, result => tourPending ts pending result
  | _, _, result => pure result

end

end Tree

/-! ### Without the record -/

/-- Without its record, `x` is the step, and it gives no names back. -/
def Retraces {α : Type} (x : Touring α) (step : Naming α) : Prop :=
  ∀ tour, match x tour with
    | .ok (a, tour') =>
      step tour.names = .ok (a, tour'.names) ∧ tour'.names.start = tour.names.start
        ∧ tour.names.next ≤ tour'.names.next
    | .error e => step tour.names = .error e

namespace Retraces

variable {α β : Type}

/-- A value draws nothing. -/
theorem pure (a : α) : Retraces (pure a) (pure a) := by
  intro tour
  exact ⟨rfl, rfl, le_refl _⟩

/-- A failure draws nothing. -/
theorem throw (e : Error) : Retraces (throw e : Touring α) (throw e) := by
  intro tour
  rfl

/-- A name is drawn from those that are left. -/
theorem fresh (base : String) : Retraces (.fresh base) (freshName base) := by
  intro tour
  exact ⟨rfl, rfl, Int.le_add_one (le_refl _)⟩

/-- Visits are in the record only. -/
theorem visit {x : Touring α} {step : Naming α} (h : Retraces x step) (t : Tree) :
  Retraces (Touring.visit t >>= fun _ => x) step
  := by
  intro tour
  exact h { tour with visits := t :: tour.visits }

/-- The record of a sequence is taken away by taking away those of its parts. -/
theorem bind {x : Touring α} {step : Naming α} {f : α → Touring β} {g : α → Naming β}
    (hx : Retraces x step) (hf : ∀ a, Retraces (f a) (g a)) :
  Retraces (x >>= f) (step >>= g)
  := by
  intro tour
  have hfirst := hx tour
  cases hrun : x tour with
  | error e =>
    rw [hrun] at hfirst
    simp only [Bind.bind, StateT.bind, hrun, hfirst, Except.bind]
  | ok r =>
    obtain ⟨a, tour₁⟩ := r
    rw [hrun] at hfirst
    obtain ⟨hstep, hstart, hle⟩ := hfirst
    have hbind : (x >>= f) tour = f a tour₁ := by
      simp only [Bind.bind, StateT.bind, hrun, Except.bind]
    rw [hbind, Tree.naming_bind hstep]
    have hrest := hf a tour₁
    cases hrun' : f a tour₁ with
    | error e =>
      rw [hrun'] at hrest
      exact hrest
    | ok r =>
      rw [hrun'] at hrest
      exact ⟨hrest.1, hrest.2.1.trans hstart, hle.trans hrest.2.2⟩

end Retraces

namespace Tree

mutual

/-- Without the record, a tree is converted. -/
theorem retraces_tourNode :
    ∀ (k? : Option Tree) (t : Tree), Retraces (tourNode k? t) (convertNode k? t)
  | k?, .literal _ | k?, .var _ | k?, .continuation _ _ => by
      rw [tourNode, convertNode]
      exact (Retraces.pure _).visit _
  | k?, .abstraction params body => by
      rw [tourNode, convertNode]
      apply Retraces.visit
      apply Retraces.bind (.fresh "k")
      intro k
      apply Retraces.bind (retraces_tourNode _ body)
      intro body
      apply Retraces.pure
  | k?, .operation op operands => by
      rw [tourNode.eq_def, convertNode.eq_def]
      apply Retraces.visit
      dsimp only
      split
      · apply Retraces.bind (retraces_tourValues operands)
        intro operands
        apply Retraces.pure
      split
      · apply Retraces.throw
      · apply Retraces.bind (retraces_tourParts operands)
        rintro ⟨parts, pending⟩
        apply retraces_tourPending operands
  | k?, .conditional .trivial test conseq alt => by
      rw [tourNode.eq_def, convertNode.eq_def]
      apply Retraces.visit
      apply Retraces.bind (retraces_tourNode none test)
      intro test
      apply Retraces.bind (retraces_tourNode none conseq)
      intro conseq
      apply Retraces.bind (retraces_tourNode none alt)
      intro alt
      apply Retraces.pure
  | some k, .conditional .serious test conseq alt => by
      rw [tourNode.eq_def, convertNode.eq_def]
      apply Retraces.visit
      apply Retraces.bind (retraces_tourNode _ conseq)
      intro conseq
      apply Retraces.bind (retraces_tourNode _ alt)
      intro alt
      split
      · apply Retraces.bind (retraces_tourNode none test)
        intro test
        apply Retraces.pure
      · apply Retraces.bind (.fresh "s")
        intro s
        apply retraces_tourNode _ test
  | k?, .conditional .converted test conseq alt => by
      rw [tourNode.eq_def, convertNode.eq_def]
      exact (Retraces.pure _).visit _
  | some _, .conditional .plain _ _ _ | none, .conditional .plain _ _ _
  | none, .conditional .serious _ _ _ => by
      rw [tourNode.eq_def, convertNode.eq_def]
      exact (Retraces.throw _).visit _
  | k?, .application rator rands => by
      rw [tourNode.eq_def, convertNode.eq_def]
      apply Retraces.visit
      dsimp only
      split
      · apply Retraces.throw
      split
      · apply Retraces.bind (retraces_tourNode none rator)
        intro function
        apply Retraces.bind (retraces_tourParts rands)
        rintro ⟨parts, pending⟩
        apply retraces_tourPending rands
      · apply Retraces.bind (.fresh "s")
        intro s
        apply Retraces.bind (retraces_tourParts rands)
        rintro ⟨parts, pending⟩
        apply Retraces.bind (retraces_tourPending rands pending _)
        intro rest
        apply retraces_tourNode _ rator
  | k?, .definition name params body own => by
      rw [tourNode.eq_def, convertNode.eq_def]
      apply Retraces.visit
      dsimp only
      split
      · apply Retraces.throw
      · apply Retraces.throw
  | k?, .blank | k?, .resumption _ _ | k?, .entry _ _ _ _ _ | k?, .program _ _ | k?, .nothing
  | k?, .number _ | k?, .text _ | k?, .list _ | k?, .tuple _ => by
      rw [tourNode.eq_def, convertNode.eq_def]
      apply Retraces.visit
      dsimp only
      split
      · apply Retraces.throw
      · apply Retraces.throw

/-- Without the record, trivial trees are converted. -/
theorem retraces_tourValues : ∀ ts : List Tree, Retraces (tourValues ts) (convertValues ts)
  | [] => by
      rw [tourValues, convertValues]
      apply Retraces.pure
  | t :: ts => by
      rw [tourValues, convertValues]
      apply Retraces.bind (retraces_tourNode none t)
      intro first
      apply Retraces.bind (retraces_tourValues ts)
      intro rest
      apply Retraces.pure

/-- Without the record, parts are converted. -/
theorem retraces_tourParts : ∀ ts : List Tree, Retraces (tourParts ts) (convertParts ts)
  | [] => by
      rw [tourParts, convertParts]
      apply Retraces.pure
  | t :: ts => by
      rw [tourParts, convertParts]
      split
      · apply Retraces.bind (retraces_tourNode none t)
        intro value
        apply Retraces.bind (retraces_tourParts ts)
        rintro ⟨values, pending⟩
        apply Retraces.pure
      · apply Retraces.bind (.fresh "s")
        intro s
        apply Retraces.bind (retraces_tourParts ts)
        rintro ⟨values, pending⟩
        apply Retraces.pure

/-- Without the record, what is computed first is converted. -/
theorem retraces_tourPending :
    ∀ (ts : List Tree) (pending : List (Option String)) (result : Tree),
      Retraces (tourPending ts pending result) (convertPending ts pending result)
  | [], pending, result => by
      rw [tourPending, convertPending]
      · apply Retraces.pure
      all_goals intros; contradiction
  | t :: ts, [], result => by
      rw [tourPending, convertPending]
      · apply Retraces.pure
      all_goals intros; contradiction
  | t :: ts, none :: pending, result => by
      rw [tourPending, convertPending]
      apply retraces_tourPending ts pending result
  | t :: ts, some s :: pending, result => by
      rw [tourPending, convertPending]
      apply Retraces.bind (retraces_tourPending ts pending result)
      intro result
      apply retraces_tourNode _ t

end

/-! ### What is to be visited -/

mutual

/-- A tree and all that stands in it, each tree as often as it stands there. -/
def subtrees (t : Tree) : List Tree :=
  t :: match t with
    | operation _ operands => subtreesAll operands
    | conditional _ test conseq alt => subtrees test ++ subtrees conseq ++ subtrees alt
    | abstraction _ body | definition _ _ body _ | continuation _ body => subtrees body
    | resumption k arg => subtrees k ++ subtrees arg
    | application rator rands => subtrees rator ++ subtreesAll rands
    | entry _ _ _ _ inner => subtrees inner
    | program definitions _ => subtreesAll definitions
    | _ => []

/-- Some trees and all that stands in them. -/
def subtreesAll : List Tree → List Tree
  | [] => []
  | t :: ts => subtrees t ++ subtreesAll ts

end

/-- What stands in some trees stands in one of them. -/
theorem subtreesAll_eq_flatMap (ts : List Tree) : subtreesAll ts = ts.flatMap subtrees := by
  induction ts with
  | nil => rw [subtreesAll, List.flatMap_nil]
  | cons t ts ih => rw [subtreesAll, ih, List.flatMap_cons]

/-- What stands in a tree is the tree, or stands in one of its children. -/
theorem subtrees_eq (t : Tree) : t.subtrees = t :: t.children.flatMap subtrees := by
  rw [subtrees.eq_def]
  cases t <;> simp [children, subtreesAll_eq_flatMap]

/-- How many names are drawn for a node by itself: one for the continuation of a function, and one
for each operand, each part of an application and each test that is not trivial. -/
def ownDraws : Tree → Nat
  | abstraction _ _ => 1
  | operation _ operands => operands.countP fun t => !t.isTrivial
  | application rator rands => (rator :: rands).countP fun t => !t.isTrivial
  | conditional _ test _ _ => if test.isTrivial then 0 else 1
  | _ => 0

/-- How many names are drawn for a tree and all that stands in it. -/
def totalDraws (t : Tree) : Nat :=
  (t.subtrees.map ownDraws).sum

end Tree

/-! ### What is visited -/

/-- The next number, less the numbers of names that are drawn for the visited trees. -/
def Tour.balance (tour : Tour) : Int :=
  tour.names.next - ((tour.visits.map Tree.ownDraws).sum : Nat)

/-- From anywhere the step succeeds; it visits the trees `ts`, in any order, and draws `owed` names
more than are drawn for these trees by themselves. -/
def Covers {α : Type} (owed : Int) (ts : List Tree) (x : Touring α) : Prop :=
  ∀ tour, ∃ a tour', x tour = .ok (a, tour') ∧ tour'.visits.Perm (ts ++ tour.visits)
    ∧ tour'.balance = tour.balance + owed

namespace Covers

variable {α β : Type} {owed owed' : Int} {ts us : List Tree}

/-- A value visits nothing. -/
theorem pure (a : α) : Covers 0 [] (pure a : Touring α) := by
  intro tour
  exact ⟨a, tour, rfl, .refl _, (Int.add_zero _).symm⟩

/-- A name that is drawn has to be accounted for. -/
theorem fresh (base : String) : Covers 1 [] (.fresh base) := by
  intro tour
  refine ⟨_, _, rfl, .refl _, ?_⟩
  simp only [Tour.balance, NameSource.fresh]
  omega

/-- Steps visit trees one after the other. -/
theorem bind {x : Touring α} {f : α → Touring β} (hx : Covers owed ts x)
    (hf : ∀ a, Covers owed' us (f a)) :
  Covers (owed + owed') (ts ++ us) (x >>= f)
  := by
  intro tour
  obtain ⟨a, tour₁, hrun, hperm, hbalance⟩ := hx tour
  obtain ⟨b, tour₂, hrun', hperm', hbalance'⟩ := hf a tour₁
  refine ⟨b, tour₂, ?_, ?_, by omega⟩
  · simp only [Bind.bind, StateT.bind, hrun, Except.bind]
    exact hrun'
  · have hswap : (us ++ ts).Perm (ts ++ us) := List.perm_append_comm
    apply hperm'.trans
    apply (hperm.append_left us).trans
    rw [← List.append_assoc]
    exact hswap.append_right _

/-- It does not matter in which order the trees are listed. -/
theorem congr {x : Touring α} (h : Covers owed ts x) (howed : owed = owed')
    (hperm : ts.Perm us) :
  Covers owed' us x
  := by
  intro tour
  obtain ⟨a, tour', hrun, hvisits, hbalance⟩ := h tour
  rw [howed] at hbalance
  exact ⟨a, tour', hrun, hvisits.trans (hperm.append_right _), hbalance⟩

/-- A node accounts for the names that are drawn for it by itself. -/
theorem node {t : Tree} {x : Touring Tree}
    (h : Covers t.ownDraws (t.children.flatMap Tree.subtrees) x) :
  Covers 0 t.subtrees (Touring.visit t >>= fun _ => x)
  := by
  have hvisit : Covers (-t.ownDraws) [t] (Touring.visit t) := by
    intro tour
    refine ⟨(), _, rfl, .refl _, ?_⟩
    simp only [Tour.balance, List.map_cons, List.sum_cons]
    omega
  rw [Tree.subtrees_eq]
  exact (hvisit.bind fun _ => h).congr (by omega) (.refl _)

end Covers

namespace Tree

/-- Conversion of the tree visits all that stands in it, once, and the names that are drawn are
accounted for. Without a continuation the tree has to be trivial. -/
def IsCovered (t : Tree) : Prop :=
  ∀ k?, (k? = none → t.isTrivial) → Covers 0 t.subtrees (tourNode k? t)

/-- A trivial tree is visited without a continuation. -/
theorem IsCovered.value {t : Tree} (h : IsCovered t) (ht : t.isTrivial) :
  Covers 0 t.subtrees (tourNode none t)
  := by
  exact h none fun _ => ht

/-- Every tree is visited with a continuation. -/
theorem IsCovered.before {t : Tree} (h : IsCovered t) (k : Tree) :
  Covers 0 t.subtrees (tourNode (some k) t)
  := by
  apply h
  intro h
  contradiction

/-- Trivial trees are visited from the left. -/
theorem covers_tourValues {ts : List Tree} (hts : ∀ t ∈ ts, IsCovered t)
    (htrivial : allTrivial ts) :
  Covers 0 (ts.flatMap subtrees) (tourValues ts)
  := by
  induction ts with
  | nil =>
    rw [tourValues]
    exact .pure []
  | cons t ts ih =>
    obtain ⟨ht, hts⟩ := List.forall_mem_cons.mp hts
    rw [allTrivial, Bool.and_eq_true] at htrivial
    rw [tourValues, List.flatMap_cons]
    have hrest := fun first => (ih hts htrivial.2).bind fun rest => Covers.pure (first :: rest)
    apply ((ht.value htrivial.1).bind hrest).congr rfl
    rw [List.append_nil]

/-- Parts are visited in their places or in front of the node, and a name is owed for each of the
latter. -/
theorem covers_tourParts {ts : List Tree} (hts : ∀ t ∈ ts, IsCovered t)
    (build : List Tree → Tree) :
  Covers (ts.countP fun t => !t.isTrivial) (ts.flatMap subtrees)
    (tourParts ts >>= fun r => tourPending ts r.2 (build r.1))
  := by
  induction ts generalizing build with
  | nil =>
    rw [tourParts, pure_bind, tourPending]
    · exact .pure _
    all_goals intros; contradiction
  | cons t ts ih =>
    obtain ⟨ht, hts⟩ := List.forall_mem_cons.mp hts
    rw [tourParts, List.flatMap_cons]
    split
    · rename_i htrivial
      simp only [bind_assoc, pure_bind, tourPending]
      apply ((ht.value htrivial).bind fun value => ih hts fun values => build (value :: values)).congr
      · simp [htrivial]
      · exact .refl _
    · rename_i hserious
      simp only [bind_assoc, pure_bind, tourPending]
      have hrest := fun s => (ih hts fun values => build (var s :: values)).bind fun result =>
        ht.before (continuation s result)
      simp only [bind_assoc] at hrest
      apply ((Covers.fresh "s").bind hrest).congr
      · simp [hserious]
        omega
      · rw [List.nil_append]
        exact List.perm_append_comm

/-- Surface trees without definitions inside are covered. -/
theorem isCovered_of_surface {t : Tree} (h : Surface false t) : IsCovered t := by
  induction h with
  | literal value =>
    intro k? _
    rw [tourNode.eq_def]
    exact .node (.pure _)
  | var x =>
    intro k? _
    rw [tourNode.eq_def]
    exact .node (.pure _)
  | @abstraction params body _ ih =>
    intro k? _
    rw [tourNode.eq_def]
    apply Covers.node
    have hbody := fun k => (ih.before (var k)).bind fun body =>
      Covers.pure (deliver k? (abstraction (params ++ [k]) body))
    apply ((Covers.fresh "k").bind hbody).congr rfl
    simp [children]
  | @operation op operands _ _ ih =>
    intro k? htrivial
    rw [tourNode.eq_def]
    apply Covers.node
    dsimp only
    split
    · rename_i hall
      apply ((covers_tourValues ih hall).bind fun operands =>
        Covers.pure (deliver k? (operation op operands))).congr
      · have hcount : operands.countP (fun t => !t.isTrivial) = 0 := by
          rw [List.countP_eq_zero]
          intro t ht
          simp [allTrivial_iff.mp hall t ht]
        simp only [ownDraws, hcount]
        rfl
      · rw [List.append_nil, children]
    · rename_i hserious
      cases k? with
      | none => exact absurd (htrivial rfl) hserious
      | some k => exact covers_tourParts ih fun parts => resumption k (operation op parts)
  | @trivialConditional test conseq alt htrivial _ _ _ ihtest ihconseq ihalt =>
    intro k? _
    rw [tourNode.eq_def]
    apply Covers.node
    have hrest := fun test' => (ihconseq.value htrivial.2.1).bind fun conseq' =>
      (ihalt.value htrivial.2.2).bind fun alt' =>
        Covers.pure (deliver k? (conditional .converted test' conseq' alt'))
    apply ((ihtest.value htrivial.1).bind hrest).congr
    · simp [ownDraws, htrivial.1]
    · simp [children]
  | @seriousConditional test conseq alt _ _ _ ihtest ihconseq ihalt =>
    intro k? htrivial
    cases k? with
    | none => exact absurd (htrivial rfl) (by simp [isTrivial])
    | some k =>
      rw [tourNode.eq_def]
      apply Covers.node
      dsimp only
      have htest : ∀ conseq' alt' : Tree, Covers (conditional .serious test conseq alt).ownDraws
          test.subtrees (if test.isTrivial then do
              let test ← tourNode none test
              pure (conditional .converted test conseq' alt')
            else do
              let s ← Touring.fresh "s"
              tourNode (some (continuation s (conditional .converted (var s) conseq' alt'))) test) := by
        intro conseq' alt'
        rw [ownDraws]
        split
        · rename_i htest
          apply ((ihtest.value htest).bind fun test' => Covers.pure _).congr rfl
          rw [List.append_nil]
        · exact (Covers.fresh "s").bind fun s => ihtest.before _
      apply ((ihconseq.before k).bind fun conseq' => (ihalt.before k).bind fun alt' =>
        htest conseq' alt').congr
      · simp
      · have hlast : (test.subtrees ++ (conseq.subtrees ++ alt.subtrees)).Perm
            (conseq.subtrees ++ (alt.subtrees ++ test.subtrees)) := by
          rw [← List.append_assoc conseq.subtrees]
          exact List.perm_append_comm
        simpa [children] using hlast.symm
  | definition name params hnested _ _ => contradiction
  | @application rator rands _ _ ihrator ihrands =>
    intro k? htrivial
    cases k? with
    | none => exact absurd (htrivial rfl) (by simp [isTrivial])
    | some k =>
      rw [tourNode.eq_def]
      apply Covers.node
      dsimp only
      split
      · rename_i hrator
        apply ((ihrator.value hrator).bind fun function => covers_tourParts ihrands
          fun parts => application function (parts ++ [k])).congr
        · simp [ownDraws, hrator]
        · exact .refl _
      · rename_i hrator
        have hrest := fun s => (covers_tourParts ihrands
          fun parts => application (var s) (parts ++ [k])).bind fun rest =>
            ihrator.before (continuation s rest)
        simp only [bind_assoc] at hrest
        apply ((Covers.fresh "s").bind hrest).congr
        · simp [ownDraws, hrator]
          omega
        · rw [List.nil_append, children, List.flatMap_cons]
          exact List.perm_append_comm

/-- Conversion in front of any continuation visits what stands in the tree and nothing else, and draws
the names that are drawn for it. -/
theorem exists_tour {t : Tree} (h : Surface false t) (k : Tree) (names : NameSource) :
  ∃ u visits, visits.Perm t.subtrees
    ∧ tourNode (some k) t ⟨names, []⟩
      = .ok (u, ⟨{ names with next := names.next + t.totalDraws }, visits⟩)
    ∧ convertNode (some k) t names = .ok (u, { names with next := names.next + t.totalDraws })
  := by
  obtain ⟨u, tour, hrun, hperm, hbalance⟩ := (isCovered_of_surface h).before k ⟨names, []⟩
  have hconverted := retraces_tourNode (some k) t ⟨names, []⟩
  rw [hrun] at hconverted
  obtain ⟨hconverted, hstart, -⟩ := hconverted
  rw [List.append_nil] at hperm
  have hsum : (tour.visits.map ownDraws).sum = t.totalDraws := (hperm.map ownDraws).sum_eq
  have hnames : tour.names = { names with next := names.next + t.totalDraws } := by
    obtain ⟨⟨start, next⟩, visits⟩ := tour
    simp only [Tour.balance, hsum, List.map_nil, List.sum_nil] at hbalance
    simp only at hstart
    rw [hstart, show next = names.next + t.totalDraws by omega]
  refine ⟨u, tour.visits, hperm, ?_, ?_⟩
  · rw [hrun, ← hnames]
  · rw [hconverted, hnames]

/-- The names that are drawn in the course of threading are those that are drawn for the tree. -/
theorem draws_eq_totalDraws {t : Tree} (h : Surface false t) : t.draws = t.totalDraws := by
  have hk : Abstracts "" (some (var "")) (some (var "")) := rfl
  obtain ⟨u, hu, -⟩ := converts_of_surface "" h _ _ 0 0 (by simp) hk
  obtain ⟨v, -, -, -, hv⟩ := exists_tour h (var "") ⟨0, 0⟩
  have hdraws := snd_threaded "" (some (var "")) none t 0
  rw [Renaming.tree_none h] at hdraws
  rw [hu, hdraws] at hv
  have hnext := congrArg NameSource.next (Prod.ext_iff.mp (Except.ok.inj hv)).2
  simpa using hnext

end Tree

/-- **Each part of an expression is converted once.** Let an expression stand anywhere in what is read
from a text, and let no definition stand in it. In front of any continuation it is converted, and the
conversion visits each tree that stands in it as often as it stands there, and no other: nothing of
the continuation is converted, though it is copied into the branches of conditionals. The names that
are drawn are one for each function in it, and one for each operand, each part of an application and
each test that is not trivial. Conversion of a definition with this body draws two names more. -/
theorem convert_visits_once
    {text : String} {forms : List Tree} (hread : Tree.readAll text = .ok forms) {t e : Tree}
    (ht : t ∈ forms) (he : t.Contains e) (hflat : e.holdsDefinition = false) (names : NameSource) :
  (∀ k : Tree, k.isContinuation → ∃ u visits, visits.Perm e.subtrees
      ∧ e.tourNode (some k) ⟨names, []⟩
        = .ok (u, ⟨{ names with next := names.next + e.totalDraws }, visits⟩)
      ∧ e.convert (some k) names = .ok (u, { names with next := names.next + e.totalDraws }))
    ∧ ∀ name params own, ∃ u, (Tree.definition name params e own).convertDefinition names
      = .ok (u, { names with next := names.next + e.totalDraws + 2 })
  := by
  have hsurface := ((built_of_readAll hread ht).of_contains he).surface.of_not_holdsDefinition hflat
  constructor
  · intro k hk
    obtain ⟨u, visits, hperm, htour, hconverted⟩ := Tree.exists_tour hsurface k names
    refine ⟨u, visits, hperm, htour, ?_⟩
    rw [Tree.convert]
    simp [Tree.isNode_of_surface hsurface, hk, hconverted]
  · intro name params own
    obtain ⟨u, hu, -⟩ := Tree.convertDefinition_eq "" own hsurface names.start names.next
    refine ⟨u, ?_⟩
    rw [hu, Tree.threadedBody, Tree.snd_threaded, Tree.draws_eq_totalDraws hsurface,
      Int.add_right_comm]

/-- A sum whose first operand is chosen by a call, so that the rest of the sum is copied. -/
def branching : Tree :=
  .operation .plus
    [.conditional .serious (.application (.var "f") [.literal (.int 1)]) (.literal (.int 2))
      (.application (.var "g")
        [.abstraction ["x"] (.application (.var "h") [.var "x"])]),
     .application (.var "f") [.application (.var "g") [.literal (.int 3)]]]

/-- Five names are drawn for the sum, also in front of a continuation that could not be converted. -/
theorem convert_visits_once_branching :
  Tree.readAll "(+ (if (f 1) 2 (g (fn (x) (h x)))) (f (g 3)))" = .ok [branching]
    ∧ branching.holdsDefinition = false ∧ branching.totalDraws = 5
    ∧ (∃ u, branching.convert (some (.continuation "v" .nothing)) .default = .ok (u, ⟨1, 6⟩))
    ∧ ∃ u, (Tree.definition "sum" [] branching none).convertDefinition .default = .ok (u, ⟨1, 8⟩)
  := by
  have hread : Tree.readAll "(+ (if (f 1) 2 (g (fn (x) (h x)))) (f (g 3)))"
      = .ok [branching] := by
    cbv
  have hflat : branching.holdsDefinition = false := rfl
  have hcount : branching.totalDraws = 5 := by decide
  obtain ⟨hconvert, hdefinition⟩ :=
    convert_visits_once hread (List.mem_singleton_self _) .refl hflat .default
  rw [hcount] at hconvert hdefinition
  obtain ⟨u, visits, -, -, hu⟩ := hconvert (.continuation "v" .nothing) rfl
  obtain ⟨d, hd⟩ := hdefinition "sum" [] none
  exact ⟨hread, hflat, hcount, ⟨u, hu⟩, d, hd⟩

end Springboard
