import Springboard.Proofs.Assembly
import Springboard.Proofs.Bouncing

/-!
# Trampolining preserves direct runs

A converted definition can be run in two ways. It can be evaluated as it is, with the identity for
its continuation; or it can be suspended and made the entry of a module, which runs it step by step
on trampolines. Main statement: a number that the direct run comes to is what the entry returns, on
every nesting of entries that call entries, and no trampoline forces anything but a suspension.
-/

namespace Springboard

open NameSource

/-- The function that returns its argument; `id` is its identity. -/
def Evaluation.identityValue (id : Nat) : Evaluation.Value :=
  .closure id "identity" ["v"] (.var "v") []

/-- The identity returns its argument. -/
theorem Evaluation.callBy_identityValue (id n : Nat) (v : Value) (s : State) :
  callBy apart (n + 1) (identityValue id) [v] s = .ok v s
  := by
  rfl

namespace Machine

variable {source : String → Prop} {Ds : List Definition} {n : Int}

/-- What the direct run of a converted definition comes to is what its entry returns, and the entry
enters the same functions. -/
theorem passes_entryOf
    {w : Watch} (hw : w.Allows) (h : Lexicon source Ds) (hn : 0 ≤ n) {s s' : Evaluation.State}
    (hinstalled : Installed Ds n s.globals) {ns : Namespace} (hloaded : Loaded source Ds n 0 ns)
    {p : Definition × Int} (hp : p ∈ Definition.placed Ds n) {f : Int}
    (hf : Definition.firstFlag Ds n ≤ f) {args : List Evaluation.Value} {args' : List Value}
    (hargs : List.Forall₂ (Tracks (setting Ds n s.globals [ns] 0)) args args')
    {m id id₀ : Nat} {v : Evaluation.Value}
    (hv : Evaluation.callBy Evaluation.apart m (Evaluation.threadedValue (applyKName n) p id)
      (args ++ [Evaluation.identityValue id₀]) s = .ok v s') (id' : Nat) (st : State) :
  ∃ entered entered' v' st',
    Evaluation.Passes (Evaluation.threadedValue (applyKName n) p id,
      args ++ [Evaluation.identityValue id₀]) s entered (Evaluation.identityValue id₀, [v]) s'
    ∧ Ends w [ns] (entryOf n 0 p f id') args' st entered' v' st' ∧ Repeats mangle entered entered'
    ∧ Tracks (setting Ds n s.globals [ns] 0) v v' ∧ st'.isDone st.flags.size
  := by
  have hfits : (setting Ds n s.globals [ns] 0).Fits := setting_fits h hn hinstalled hloaded
  exact ends_entry hw hfits (fun n v s => Evaluation.callBy_identityValue id₀ n v s)
    ⟨p, hp, f, hf, rfl⟩ hargs rfl hv id' st

/-- What the direct run of a converted definition comes to is what its entry returns. -/
theorem ends_entryOf
    (h : Lexicon source Ds) (hn : 0 ≤ n) {s s' : Evaluation.State}
    (hinstalled : Installed Ds n s.globals) {ns : Namespace} (hloaded : Loaded source Ds n 0 ns)
    {p : Definition × Int} (hp : p ∈ Definition.placed Ds n) {f : Int}
    (hf : Definition.firstFlag Ds n ≤ f) {args : List Evaluation.Value} {args' : List Value}
    (hargs : List.Forall₂ (Tracks (setting Ds n s.globals [ns] 0)) args args')
    {m id id₀ : Nat} {v : Evaluation.Value}
    (hv : Evaluation.callBy Evaluation.apart m (Evaluation.threadedValue (applyKName n) p id)
      (args ++ [Evaluation.identityValue id₀]) s = .ok v s') (id' : Nat) (st : State) :
  ∃ v' st' N, Tracks (setting Ds n s.globals [ns] 0) v v' ∧ st'.isDone st.flags.size
    ∧ ∀ fuel ≥ N, callBy .strict [ns] fuel (entryOf n 0 p f id') args' st = .ok v' st'
  := by
  obtain ⟨entered, entered', v', st', -, hends, -, htracks, hdone⟩ :=
    passes_entryOf Watch.strict_allows h hn hinstalled hloaded hp hf hargs hv id' st
  obtain ⟨N, hends⟩ := hends.exists_fuel
  exact ⟨v', st', N, htracks, hdone, hends⟩

/-- Numbers stand for themselves. -/
theorem tracks_numbers (S : Setting) (args : List Number) :
  List.Forall₂ (Tracks S) (args.map Evaluation.Value.number) (args.map Value.number)
  := by
  rw [List.forall₂_map_left_iff, List.forall₂_map_right_iff, List.forall₂_same]
  exact fun n _ => .number n

/-- The definition of the successor, as it is read. -/
def successor : Tree :=
  .definition "next" ["n"] (.operation .plus [.var "n", .literal (.int 1)]) none

/-- The definition of the successor of the successor, as it is read. -/
def afterNext : Tree :=
  .definition "after-next" ["n"]
    (.application (.var "next") [.application (.var "next") [.var "n"]]) none

/-- A definition that compares itself with its argument, as it is read. -/
def comparison : Tree :=
  .definition "f" ["g"] (.operation .equal [.var "f", .var "g"]) none

/-- A definition that hands the one before to itself, as it is read. -/
def selfComparison : Tree :=
  .definition "start" [] (.application (.var "f") [.var "f"]) none

/-- Definitions whose names do not keep apart although none ends in a number, as they are read, with
arguments: a parameter is repeated, two parameters have the same identifier, and a parameter has the
identifier of the continuation. -/
def clashing : List (Tree × List Number) :=
  [(.definition "f" ["x", "x"] (.var "x") none, [.int 1, .int 2]),
    (.definition "f" ["a-b", "a_b"] (.var "a-b") none, [.int 1, .int 2]),
    (.definition "f" ["k_-6"] (.var "k_-6") none, [.int 1])]

/-- Two definitions, as they are read; the second has the name of the helper that hands on values,
but for a low line. -/
def almostHelper : List Tree :=
  [.definition "f" [] (.literal (.int 1)) none, .definition "apply_k_" [] (.literal (.int 1)) none]

end Machine

end Springboard
