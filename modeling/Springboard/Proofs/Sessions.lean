import Springboard.Proofs.Preparation

/-!
# What a session binds

A line that cannot be prepared leaves the namespace alone. Otherwise its module is loaded, and then
its expression is run, which binds nothing but the last value. Main statement: after any lines the
namespace is the one that their history says, where the last definition of an identifier counts, and
the helpers keep their identifiers.
-/

namespace Springboard

namespace Session

/-! ### Steps of a session -/

/-- A session with one namespace, as it is when lines are answered. -/
def lone (ns : Machine.Namespace) (st : Machine.State) (notes : List Note) : Session :=
  ⟨[ns], 0, st, notes⟩

/-- Runs the expression of a line whose module is loaded. -/
def Batch.run (b : Batch) : Step Machine.Value := do
  if b.forms.all Tree.isDefinition then return .nothing
  match ← global? lineEntry with
  | some f => call f []
  | none => throw (.failed (.fault .missingKey))

/-- A compilation in a session has its result, and leaves all but the notes alone. -/
theorem compiling_of_result {α : Type} {c : Compile α} (h : c.IgnoresNotes) (s : Session) :
  (∀ a, c.result .default = .ok a → ∃ notes, compiling c s = .ok a { s with notes := notes })
    ∧ ∀ e, c.result .default = .error e →
      ∃ notes, compiling c s = .error (.failed e) { s with notes := notes }
  := by
  obtain ⟨hok, herror⟩ := h.result .default s.notes
  constructor
  · intro a ha
    obtain ⟨p, hp⟩ := hok a ha
    refine ⟨p.notes, ?_⟩
    rw [compiling, EStateM.run, hp]
  · intro e he
    obtain ⟨p, hp⟩ := herror e he
    refine ⟨p.notes, ?_⟩
    rw [compiling, EStateM.run, hp]

/-- A step that may fail has its value. -/
theorem attempt_of_ok {α : Type} {x : Except Error α} {a : α} (h : x = .ok a) (s : Session) :
  attempt x s = .ok a s
  := by
  rw [h]
  rfl

/-- A step that may fail stops with its error. -/
theorem attempt_of_failed {α : Type} {x : Except Error α} {e : Error} (h : x = .error e)
    (s : Session) :
  attempt x s = .error (.failed e) s
  := by
  rw [h]
  rfl

/-- A line with forms is compiled, emitted, loaded and run. -/
theorem evalLine_of_readAll {line : String} {form : Tree} {forms : List Tree}
    (hread : Tree.readAll line = .ok (form :: forms)) (m : Machine.Module) (s : Session) :
  evalLine line s
    = (do
        let program ← compiling (compileForms { entry := .text lineEntry } (form :: forms))
        let _ ← attempt (program.emitProgram defaultModule)
        load program
        Batch.run ⟨form :: forms, m⟩) s
  := by
  rw [evalLine, bind_of_ok (attempt_of_ok hread s)]
  rfl

/-- A program is loaded into the namespace of the session. -/
theorem load_of_module {program : Tree} {m : Machine.Module}
    (hm : Machine.Module.ofProgram program = .ok m) {ns ns' : Machine.Namespace}
    {st st' : Machine.State} (hload : m.load 0 ns st = .ok ns' st') (notes : List Note) :
  load program (lone ns st notes) = .ok () (lone ns' st' notes)
  := by
  have hrunning : running (m.load 0 ns) (lone ns st notes) = .ok ns' (lone ns st' notes) := by
    rw [lone, running, EStateM.run, hload]
    rfl
  rw [load, bind_of_ok (attempt_of_ok hm _)]
  exact bind_of_ok hrunning

/-- A line that is refused leaves all but the notes alone. -/
theorem evalLine_of_error {line : String} {e : Error} (h : prepare line = .error e) (s : Session) :
  ∃ notes, evalLine line s = .error (.failed e) { s with notes := notes }
  := by
  rw [prepare, Except.bind_eq_error] at h
  obtain hread | ⟨forms, hread, h⟩ := h
  · exact ⟨s.notes, bind_of_error (attempt_of_failed hread s)⟩
  cases forms with
  | nil => contradiction
  | cons form forms =>
    obtain ⟨hok, herror⟩ := compiling_of_result
      (.compileForms { entry := .text lineEntry } (form :: forms)) s
    rw [evalLine_of_readAll hread ⟨[], "", []⟩]
    -- each of the steps before the loading may be the one that fails
    simp only [List.isEmpty_cons, Bool.false_eq_true, if_false, Except.bind_eq_error] at h
    obtain hprogram | ⟨program, hprogram, h⟩ := h
    · obtain ⟨notes, hnotes⟩ := herror e hprogram
      exact ⟨notes, bind_of_error hnotes⟩
    obtain ⟨notes, hnotes⟩ := hok program hprogram
    refine ⟨notes, (bind_of_ok hnotes).trans ?_⟩
    obtain hsource | ⟨source, hsource, hmodule | ⟨m, hmodule, h⟩⟩ := h
    · exact bind_of_error (attempt_of_failed hsource _)
    · rw [bind_of_ok (attempt_of_ok hsource _)]
      exact bind_of_error (bind_of_error (attempt_of_failed hmodule _))
    · contradiction

/-- A line that is ready is loaded and run. -/
theorem evalLine_of_ok {line : String} {b : Batch} (h : prepare line = .ok b)
    {ns ns' : Machine.Namespace} {st st' : Machine.State}
    (hload : b.compiled.load 0 ns st = .ok ns' st') (notes : List Note) :
  ∃ notes', evalLine line (lone ns st notes) = b.run (lone ns' st' notes')
  := by
  obtain ⟨hread, ⟨hforms, hcompiled⟩ | ⟨hforms, program, source, hprogram, hsource, hmodule⟩⟩ :=
    of_prepare h
  · rw [hcompiled] at hload
    cases hload
    refine ⟨notes, ?_⟩
    rw [hforms] at hread
    rw [Batch.run, hforms]
    exact bind_of_ok (attempt_of_ok hread _)
  · obtain ⟨forms, m⟩ := b
    cases forms with
    | nil => contradiction
    | cons form forms =>
      obtain ⟨notes', hnotes⟩ := (compiling_of_result
        (.compileForms { entry := .text lineEntry } (form :: forms)) (lone ns st notes)).1 program
        hprogram
      refine ⟨notes', ?_⟩
      rw [evalLine_of_readAll hread m, bind_of_ok hnotes, bind_of_ok (attempt_of_ok hsource _)]
      exact bind_of_ok (load_of_module hmodule hload notes')

/-! ### Answers -/

/-- How a line ends that is loaded. If all of its forms are definitions, its value is nothing.
Otherwise the last definition of the line's entry is called, and its value is that of the line. The
value is kept; if the call stops, nothing more is bound. -/
def Concluded (b : Batch) (s : Session) (ns : Machine.Namespace) : Prop :=
  if b.forms.all Tree.isDefinition then ns = s.namespaceOf.define lastName .nothing
  else
    ∃ p id, latest lineEntry b.defined = some p
      ∧ s.namespaceOf.lookup lineEntry = some (.entry id 0 p.2 (.helper .identity))
      ∧ match call (.entry id 0 p.2 (.helper .identity)) [] s with
        | .ok v _ => ns = s.namespaceOf.define lastName v
        | .error _ _ => ns = s.namespaceOf

/-- What a line does to the namespace of a session. If the line is refused, the namespace is as it
was. Otherwise the line is loaded, and then ends in its way; where no later definition of the line
has the identifier of the line's entry, it is the line's expression that is called. -/
structure Answered (line : String) (s : Session) (ns : Machine.Namespace) : Prop where
  refused : ∀ e, prepare line = .error e → ns = s.namespaceOf
  executed : ∀ b, prepare line = .ok b → ∃ ns' st notes,
    b.compiled.load 0 s.namespaceOf s.machine = .ok ns' st ∧ Bound b s.namespaceOf ns'
      ∧ Concluded b (lone ns' st notes) ns
  expression : ∀ b, prepare line = .ok b → ∀ before t after, b.forms = before ++ t :: after →
    t.isDefinition = false →
      (∀ u ∈ after, mangle (Definition.ofForm lineEntry u).name ≠ lineEntry) →
      ∃ e, latest lineEntry b.defined = some (⟨lineEntry, [], t⟩, e)

/-- The identifier of the line's entry is its name. -/
theorem mangle_lineEntry : mangle lineEntry = lineEntry := by
  decide +kernel

/-- If no later definition of a line has the identifier of the line's entry, the expression of the
line is the last that has. -/
theorem latest_lineEntry {line : String} {b : Batch} (h : prepare line = .ok b)
    {before after : List Tree} {t : Tree} (hforms : b.forms = before ++ t :: after)
    (ht : t.isDefinition = false)
    (hafter : ∀ u ∈ after, mangle (Definition.ofForm lineEntry u).name ≠ lineEntry) :
  ∃ e, latest lineEntry b.defined = some (⟨lineEntry, [], t⟩, e)
  := by
  obtain ⟨hdefined, -⟩ := defined_of_prepare h
  rw [hforms, List.map_append, List.map_cons, List.map_eq_append_iff] at hdefined
  obtain ⟨ds, ds', hsplit, -, hrest⟩ := hdefined
  obtain ⟨⟨d, e⟩, ds'', rfl, hd, hlater⟩ := List.map_eq_cons_iff.mp hrest
  rw [Definition.ofForm_of_not_isDefinition lineEntry ht] at hd
  cases hd
  refine ⟨e, ?_⟩
  have hnone : latest lineEntry ds'' = none := by
    rw [latest_eq_none]
    intro p hp
    have hmem := List.mem_map_of_mem hp (f := Prod.fst)
    rw [hlater, List.mem_map] at hmem
    obtain ⟨u, hu, heq⟩ := hmem
    rw [← heq]
    exact hafter u hu
  rw [hsplit, latest_append, latest_cons, hnone, if_pos mangle_lineEntry]
  rfl

/-- The entry of a line with an expression is defined in that line. -/
theorem exists_latest_lineEntry {line : String} {b : Batch} (h : prepare line = .ok b)
    (hall : b.forms.all Tree.isDefinition = false) :
  ∃ p, latest lineEntry b.defined = some p
  := by
  rw [List.all_eq_false] at hall
  obtain ⟨t, ht, hexpression⟩ := hall
  have hmem := List.mem_map_of_mem ht (f := Definition.ofForm lineEntry)
  rw [← (defined_of_prepare h).1, List.mem_map] at hmem
  obtain ⟨p, hp, heq⟩ := hmem
  rw [Definition.ofForm_of_not_isDefinition lineEntry (by simpa using hexpression)] at heq
  apply Option.ne_none_iff_exists'.mp
  intro hnone
  apply latest_eq_none.mp hnone p hp
  rw [heq]
  exact mangle_lineEntry

/-- The session after a line that has a value. -/
theorem respond_of_ok {line : String} {s s' : Session} {v : Machine.Value}
    (h : evalLine line s = .ok v s') :
  (respond line s).2 = s'.withNamespace (s'.namespaceOf.define lastName v)
  := by
  let s₁ := s'.withNamespace (s'.namespaceOf.define lastName v)
  have hkept : (modify fun s => s.withNamespace (s.namespaceOf.define lastName v) : Step Unit) s'
      = .ok () s₁ := by
    rfl
  have hget : (get : Step Session) s₁ = .ok s₁ s₁ := by
    rfl
  -- whether the value is shown or not, nothing else is bound
  have hanswer : (∃ output, answer line s = .ok output s₁) ∨ ∃ e, answer line s = .error e s₁ := by
    rw [answer, bind_of_ok h, bind_of_ok hkept]
    cases v.isNothing with
    | true => exact .inl ⟨{}, rfl⟩
    | false =>
      cases hshown : Error.ofFault (s₁.showValue v) with
      | ok shown =>
        exact .inl ⟨_, (bind_of_ok hget).trans (bind_of_ok (attempt_of_ok hshown s₁))⟩
      | error e =>
        exact .inr ⟨_, (bind_of_ok hget).trans (bind_of_error (attempt_of_failed hshown s₁))⟩
  obtain ⟨output, hanswer⟩ | ⟨e, hanswer⟩ := hanswer
  · rw [respond, EStateM.run, hanswer]
  · rw [respond, EStateM.run, hanswer]

/-- The session after a line that stops. -/
theorem respond_of_error {line : String} {s s' : Session} {e : Stop}
    (h : evalLine line s = .error e s') :
  (respond line s).2 = s'
  := by
  have hanswer : answer line s = .error e s' := bind_of_error h
  rw [respond, EStateM.run, hanswer]

/-- A call leaves the namespaces alone. -/
theorem call_cases (f : Machine.Value) (args : List Machine.Value) (s : Session) :
  (∃ v st, call f args s = .ok v { s with machine := st })
    ∨ ∃ e st, call f args s = .error e { s with machine := st }
  := by
  have hcall : call f args s = running (Machine.call s.spaces Machine.ampleFuel f args) s := rfl
  rw [hcall, running, EStateM.run]
  cases Machine.call s.spaces Machine.ampleFuel f args s.machine with
  | ok v st => exact .inl ⟨v, st, rfl⟩
  | error e st => exact .inr ⟨e, st, rfl⟩

/-- A line that is loaded ends. -/
theorem exists_concluded {line : String} {b : Batch} (h : prepare line = .ok b)
    {ns₀ ns : Machine.Namespace} (hbound : Bound b ns₀ ns) {st : Machine.State} {notes : List Note}
    {s : Session} (heval : evalLine line s = b.run (lone ns st notes)) :
  ∃ ns' st' notes', (respond line s).2 = lone ns' st' notes' ∧ Concluded b (lone ns st notes) ns'
  := by
  cases hall : b.forms.all Tree.isDefinition with
  | true =>
    have hrun : b.run (lone ns st notes) = .ok .nothing (lone ns st notes) := by
      rw [Batch.run, hall]
      rfl
    refine ⟨_, st, notes, respond_of_ok (heval.trans hrun), ?_⟩
    rw [Concluded, if_pos hall]
  | false =>
    obtain ⟨p, hp⟩ := exists_latest_lineEntry h hall
    obtain ⟨id, hid⟩ := (hbound.others lineEntry fun _ => by decide).of_some p hp
    have hrun : b.run (lone ns st notes)
        = call (.entry id 0 p.2 (.helper .identity)) [] (lone ns st notes) := by
      have hglobal : global? lineEntry (lone ns st notes)
          = .ok (some (.entry id 0 p.2 (.helper .identity))) (lone ns st notes) := by
        rw [← hid]
        rfl
      rw [Batch.run, hall]
      exact bind_of_ok hglobal
    rw [hrun] at heval
    unfold Concluded
    rw [hall]
    obtain ⟨v, st', hcall⟩ | ⟨e, st', hcall⟩ :=
      call_cases (.entry id 0 p.2 (.helper .identity)) [] (lone ns st notes)
    · refine ⟨_, st', notes, respond_of_ok (heval.trans hcall), p, id, hp, hid, ?_⟩
      rw [hcall]
      rfl
    · refine ⟨_, st', notes, respond_of_error (heval.trans hcall), p, id, hp, hid, ?_⟩
      rw [hcall]
      rfl

/-- Every respectful line is answered. -/
theorem exists_answered {line : String} (hline : IsRespectful line) (ns : Machine.Namespace)
    (st : Machine.State) (notes : List Note) :
  ∃ ns' st' notes', (respond line (lone ns st notes)).2 = lone ns' st' notes'
    ∧ Answered line (lone ns st notes) ns'
  := by
  cases hprepare : prepare line with
  | error e =>
    obtain ⟨notes', heval⟩ := evalLine_of_error hprepare (lone ns st notes)
    refine ⟨ns, st, notes', respond_of_error heval, fun _ _ => rfl, ?_, ?_⟩
    · intro b hb
      rw [hprepare] at hb
      contradiction
    · intro b hb
      rw [hprepare] at hb
      contradiction
  | ok b =>
    obtain ⟨ns₁, st₁, hload, hbound⟩ := exists_bound hline hprepare ns st
    obtain ⟨notes₁, heval⟩ := evalLine_of_ok hprepare hload notes
    obtain ⟨ns', st', notes', hrespond, hconcluded⟩ := exists_concluded hprepare hbound heval
    refine ⟨ns', st', notes', hrespond, ?_, ?_, ?_⟩
    · intro e he
      rw [hprepare] at he
      contradiction
    · intro b' hb'
      rw [hprepare] at hb'
      cases hb'
      exact ⟨ns₁, st₁, notes₁, hload, hbound, hconcluded⟩
    · intro b' hb' before t after hforms ht hafter
      exact latest_lineEntry hb' hforms ht hafter

/-! ### Histories -/

/-- The definitions that a line makes, with their entries. A line that is refused makes none. -/
def made (line : String) : List (Definition × Machine.Entry) :=
  match prepare line with
  | .ok b => b.defined
  | .error _ => []

/-- A namespace is the one that the history of some lines says. The helpers are bound once a line
was executed; any other identifier is bound to the entry of its last definition, if it has one. -/
structure Consistent (lines : List String) (ns : Machine.Namespace) : Prop where
  helpers : ∀ ident helper, (ident, helper) ∈ lineHelpers →
    ns.lookup ident = if (lines.flatMap made).isEmpty then none else some (.helper helper)
  others : ∀ x, x ∉ reserved → HasLatest x (lines.flatMap made) none (ns.lookup x)
  compiled : ∀ line ∈ lines, ∀ b, prepare line = .ok b →
    (made line).map Prod.fst = b.forms.map (Definition.ofForm lineEntry)
      ∧ ∀ p ∈ made line, p.1.CompilesTo p.2

/-- Where a line ends, nothing is bound but the last value. -/
theorem Concluded.lookup_eq {b : Batch} {s : Session} {ns : Machine.Namespace}
    (h : Concluded b s ns) {x : String} (hx : x ≠ lastName) :
  ns.lookup x = s.namespaceOf.lookup x
  := by
  have hdefine : ∀ v, (s.namespaceOf.define lastName v).lookup x = s.namespaceOf.lookup x := by
    intro v
    rw [Machine.lookup_define, if_neg hx]
  unfold Concluded at h
  split at h
  · rw [h, hdefine]
  · obtain ⟨p, id, -, -, h⟩ := h
    split at h
    · rw [h, hdefine]
    · rw [h]

/-- A line that is answered makes its part of the history. -/
theorem Consistent.answered {lines : List String} {ns ns' : Machine.Namespace}
    (h : Consistent lines ns) {line : String} {st : Machine.State} {notes : List Note}
    (hline : Answered line (lone ns st notes) ns') :
  Consistent (lines ++ [line]) ns'
  := by
  have hcompiled : ∀ line' ∈ lines ++ [line], ∀ b, prepare line' = .ok b →
      (made line').map Prod.fst = b.forms.map (Definition.ofForm lineEntry)
        ∧ ∀ p ∈ made line', p.1.CompilesTo p.2 := by
    intro line' _ b hb
    obtain ⟨hforms, -, hcompiles⟩ := defined_of_prepare hb
    rw [made, hb]
    exact ⟨hforms, fun p hp => (hcompiles p hp).1⟩
  have hhistory : (lines ++ [line]).flatMap made = lines.flatMap made ++ made line := by
    rw [List.flatMap_append, List.flatMap_singleton]
  cases hprepare : prepare line with
  | error e =>
    have hmade : made line = [] := by rw [made, hprepare]
    have hsame : ns' = ns := hline.refused e hprepare
    rw [hmade, List.append_nil] at hhistory
    refine ⟨?_, ?_, hcompiled⟩
    · rw [hhistory, hsame]
      exact h.helpers
    · rw [hhistory, hsame]
      exact h.others
  | ok b =>
    have hmade : made line = b.defined := by rw [made, hprepare]
    obtain ⟨ns₁, st₁, notes₁, -, hbound, hconcluded⟩ := hline.executed b hprepare
    have hbound : Bound b ns ns₁ := hbound
    have hlookup : ∀ x, x ≠ lastName → ns'.lookup x = ns₁.lookup x := fun x hx =>
      hconcluded.lookup_eq hx
    rw [hmade] at hhistory
    refine ⟨?_, ?_, hcompiled⟩
    · intro ident helper hmem
      have hlast : lastName ∉ lineHelpers.map Prod.fst := by
        decide
      rw [hhistory, hlookup ident (ne_of_mem_of_not_mem (List.mem_map_of_mem hmem) hlast)]
      by_cases hforms : b.forms = []
      · have hsame := hbound.others ident fun hne => absurd hforms hne
        rw [Batch.defined_eq_nil hforms] at hsame ⊢
        rw [List.append_nil, ← h.helpers ident helper hmem]
        exact hsame.of_none rfl
      · have hdefined : b.defined ≠ [] := by
          intro hnil
          have hfst := (defined_of_prepare hprepare).1
          rw [hnil, List.map_nil, eq_comm, List.map_eq_nil_iff] at hfst
          contradiction
        have hmore : (lines.flatMap made ++ b.defined).isEmpty = false := by
          rw [List.isEmpty_eq_false_iff]
          exact List.append_ne_nil_of_right_ne_nil _ hdefined
        rw [hbound.helpers hforms ident helper hmem, hmore]
        rfl
    · intro x hx
      obtain ⟨hlast, hhelpers⟩ := List.ne_and_not_mem_of_not_mem_cons hx
      rw [hhistory, hlookup x hlast]
      exact (h.others x hx).append (hbound.others x fun _ => hhelpers)

/-- The session after some lines. -/
def after (lines : List String) : Session :=
  lines.foldl (fun s line => (respond line s).2) (ofNamespace [])

/-- A further line is answered by the session after those before. -/
theorem after_concat (lines : List String) (line : String) :
  after (lines ++ [line]) = (respond line (after lines)).2
  := by
  apply List.foldl_concat

/-- The lines that are answered: those before the first that is missing or empty. -/
def heard : List (Option String) → List String
  | some line :: lines => if line.isEmpty then [] else line :: heard lines
  | _ => []

/-- Lines are answered one after the other. -/
theorem respondAll_eq (inputs : List (Option String)) (s : Session) :
  (respondAll inputs s).2 = (heard inputs).foldl (fun s line => (respond line s).2) s
  := by
  induction inputs generalizing s with
  | nil => rfl
  | cons input inputs ih =>
    cases input with
    | none => rfl
    | some line =>
      rw [respondAll, heard]
      split
      · rfl
      · exact ih _

/-- After respectful lines the namespace is the one that their history says. -/
theorem exists_consistent {lines : List String} (h : ∀ line ∈ lines, IsRespectful line) :
  ∃ ns st notes, after lines = lone ns st notes ∧ Consistent lines ns
  := by
  induction lines using List.reverseRecOn with
  | nil =>
    refine ⟨[], .start, [], rfl, ?_, ?_, ?_⟩
    · intro ident helper _
      rfl
    · intro x _
      apply HasLatest.nil
    · intro line hline
      contradiction
  | append_singleton lines line ih =>
    obtain ⟨hlines, hline⟩ := List.forall_mem_append.mp h
    obtain ⟨ns, st, notes, hafter, hconsistent⟩ := ih hlines
    obtain ⟨ns', st', notes', hrespond, hanswered⟩ :=
      exists_answered (List.forall_mem_singleton.mp hline) ns st notes
    refine ⟨ns', st', notes', ?_, hconsistent.answered hanswered⟩
    rw [after_concat, hafter, hrespond]

/-- The first lines of a small session: a definition, and a line that stops. -/
def smallLines : List String := ["(defn f (x) x)\n", "(f (f)) (defn g () 1)\n"]

/-- A line that is refused. -/
def openLine : String := "(defn f () 0\n"

-- a definition with the identifier of the line's entry is called in the place of the expression
example : ((after ["5 (defn repl-entry () 7)\n"]).namespaceOf.lookup lastName).bind
    Machine.Value.number? = some (.int 7) := by
  decide +kernel

end Session

end Springboard
