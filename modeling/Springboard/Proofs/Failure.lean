import Springboard.Proofs.Emission

/-!
# When compilation fails

Compilation fails for two reasons only: the text cannot be read, or a program has the wrong shape.
The second happens just when a definition stands inside a form, or when two forms have the same
name; it is always complained about, and no stage is ever handed what the stage before should not
have left. Main statement: these are exactly the cases, for every text, name of the entry and source
of names, and a program that was compiled can be written out unless it holds an integer with too
many digits.
-/

namespace Springboard

open NameSource Compile

/-! ### Complaints -/

/-- Errors about the shape of a program. -/
def Error.IsMalformed (e : Error) : Prop :=
  ∃ complaint place subject, e = .malformed complaint place subject

/-- Errors about a text that cannot be read. -/
def Error.IsUnreadable (e : Error) : Prop :=
  ∃ reason place, e = .unreadable reason place

/-- A result that is a value or a complaint about the shape of a program. -/
def Complains {α : Type} (result : Except Error α) : Prop :=
  ∀ e, result = .error e → e.IsMalformed

namespace Complains

variable {α β : Type}

/-- A value is no error. -/
theorem ok (a : α) : Complains (.ok a) := by
  intro e h
  contradiction

/-- A complaint is about the shape of a program. -/
theorem malformed (complaint : Complaint) (place : Option Position) (subject : Tree) :
  Complains (.error (.malformed complaint place subject) : Except Error α)
  := by
  intro e h
  cases h
  exact ⟨complaint, place, subject, rfl⟩

/-- Steps that only complain do so in a sequence. -/
theorem bind {x : Except Error α} {f : α → Except Error β} (hx : Complains x)
    (hf : ∀ a, Complains (f a)) :
  Complains (x >>= f)
  := by
  cases x with
  | error e => exact fun e' h => hx e' (by cases h; rfl)
  | ok a => exact hf a

end Complains

/-! ### Reading -/

namespace Form

/-- A list of parameters is read or complained about. -/
theorem complains_params (head : String) (f : Form) : Complains (f.params head) := by
  cases f with
  | symbol place text => exact .malformed _ _ _
  | number value => exact .malformed _ _ _
  | group place bracket members =>
    rw [params]
    split
    · exact .ok _
    · exact .malformed _ _ _

mutual

/-- A form has a meaning or is complained about. -/
theorem complains_surface : ∀ f : Form, Complains f.surface
  | .symbol _ _ | .number _ => by
      rw [surface]
      exact .ok _
  | .group place bracket members => by
      rw [surface]
      exact complains_surfaceGroup _ members

/-- A group has a meaning or is complained about. -/
theorem complains_surfaceGroup (whole : Form) : ∀ members, Complains (surfaceGroup whole members)
  | [] => by
      rw [surfaceGroup]
      exact .malformed _ _ _
  | .symbol place text :: rest => by
      rw [surfaceGroup.eq_def]
      dsimp only
      split
      · exact complains_surfaceConnective whole _ rest
      · split
        · rename_i test conseq alt
          exact .bind (complains_surface test) fun _ => .bind (complains_surface conseq) fun _ =>
            .bind (complains_surface alt) fun _ => .ok _
        · exact .malformed _ _ _
      · split
        · rename_i params body
          exact .bind (complains_params text params) fun _ => .bind (complains_surface body)
            fun _ => .ok _
        · exact .malformed _ _ _
      · split
        · rename_i params body
          exact .bind (complains_params text params) fun _ => .bind (complains_surface body)
            fun _ => .ok _
        · exact .malformed _ _ _
      · split
        · split
          · exact .bind (complains_surfaceAll rest) fun _ => .ok _
          · exact .malformed _ _ _
        · exact .bind (complains_surfaceAll rest) fun _ => .ok _
  | .number value :: rest => by
      rw [surfaceGroup]
      · exact .bind (complains_surface _) fun _ => .bind (complains_surfaceAll rest) fun _ => .ok _
      · intros
        contradiction
  | .group place bracket members :: rest => by
      rw [surfaceGroup]
      · exact .bind (complains_surface _) fun _ => .bind (complains_surfaceAll rest) fun _ => .ok _
      · intros
        contradiction

/-- A connective has a meaning or is complained about. -/
theorem complains_surfaceConnective (whole : Form) (c : Connective) :
    ∀ operands, Complains (surfaceConnective whole c operands)
  | [] => by
      rw [surfaceConnective]
      exact .malformed _ _ _
  | first :: rest => by
      rw [surfaceConnective]
      split
      · exact complains_surface first
      · exact .bind (complains_surface first) fun _ =>
          .bind (complains_surfaceConnective whole c rest) fun _ => .ok _

/-- Forms have meanings, or one of them is complained about. -/
theorem complains_surfaceAll : ∀ fs, Complains (surfaceAll fs)
  | [] => by
      rw [surfaceAll]
      exact .ok _
  | f :: fs => by
      rw [surfaceAll]
      exact .bind (complains_surface f) fun _ => .bind (complains_surfaceAll fs) fun _ => .ok _

end

end Form

/-- The decimal integers among the atoms of a text have no more digits than a numeral may have. -/
def HasShortDecimals (text : String) : Prop :=
  ∀ place token digits, .atom place token ∈ (Scan.ofText text).events →
    Number.digits? Text.digitValue? (Number.splitSign token).2 = some digits →
      digits.length ≤ Number.digitLimit

/-- An atom that is no decimal integer with too many digits has a form. -/
theorem exists_ofAtom (place : Position) {token : List Char}
    (h : ∀ digits, Number.digits? Text.digitValue? (Number.splitSign token).2 = some digits →
      digits.length ≤ Number.digitLimit) :
  ∃ f, Form.ofAtom place token = .ok f
  := by
  have hread : ∀ fault, Number.read? (String.ofList token) ≠ some (.error fault) := by
    intro fault hfault
    rw [Number.read?, String.toList_ofList] at hfault
    split at hfault
    · cases hfault
    split at hfault
    · cases hfault
    dsimp only at hfault
    split at hfault
    · rename_i result hresult
      rw [Number.readInt?, Option.map_eq_some_iff] at hresult
      obtain ⟨digits, hdigits, rfl⟩ := hresult
      rw [if_neg (Nat.not_lt.mpr (h digits hdigits))] at hfault
      cases hfault
    · rw [Option.map_eq_some_iff] at hfault
      obtain ⟨number, -, hnumber⟩ := hfault
      contradiction
  rw [Form.ofAtom]
  split
  · exact ⟨_, rfl⟩
  · rename_i fault hfault
    exact absurd hfault (hread fault)
  · exact ⟨_, rfl⟩

/-- Putting forms together goes wrong only because of brackets, if all atoms have forms. -/
theorem isUnreadable_of_step
    {s : Composer} {event : Event} (hs : ∀ e, s.failed = some e → e.IsUnreadable)
    (hevent : ∀ place token, event = .atom place token → ∃ f, Form.ofAtom place token = .ok f) :
  ∀ e, (s.step event).failed = some e → e.IsUnreadable
  := by
  have hadd : ∀ (s : Composer) f, (s.add f).failed = s.failed := by
    intro s f
    unfold Composer.add
    split <;> rfl
  unfold Composer.step
  split
  · exact hs
  cases event with
  | newline place => exact hs
  | comment place text => exact hs
  | opening place bracket => exact hs
  | closing place bracket =>
    dsimp only
    unfold Composer.close
    split
    · intro e he
      cases he
      exact ⟨_, _, rfl⟩
    split
    · rw [hadd]
      exact hs
    · intro e he
      cases he
      exact ⟨_, _, rfl⟩
  | atom place token =>
    obtain ⟨f, hf⟩ := hevent place token rfl
    dsimp only
    rw [hf]
    dsimp only
    rw [hadd]
    exact hs

/-- Going through events, putting forms together goes wrong only because of brackets. -/
theorem isUnreadable_of_foldl
    {events : List Event} (hevents : ∀ event ∈ events, ∀ place token, event = .atom place token →
      ∃ f, Form.ofAtom place token = .ok f)
    {s : Composer} (hs : ∀ e, s.failed = some e → e.IsUnreadable) :
  ∀ e, (events.foldl Composer.step s).failed = some e → e.IsUnreadable
  := by
  induction events generalizing s with
  | nil => exact hs
  | cons event events ih =>
    obtain ⟨hevent, hevents⟩ := List.forall_mem_cons.mp hevents
    exact ih hevents (isUnreadable_of_step hs hevent)

/-- A text whose decimal integers are short has forms, or cannot be read. -/
theorem isUnreadable_of_ofText
    {text : String} (h : HasShortDecimals text) {e : Error}
    (he : (Form.ofText text).ending = some e) :
  e.IsUnreadable
  := by
  have hs : ∀ e, ((Scan.ofText text).events.foldl Composer.step .start).failed = some e →
      e.IsUnreadable := by
    apply isUnreadable_of_foldl
    · rintro event hevent place token rfl
      exact exists_ofAtom place fun digits hdigits => h place token digits hevent hdigits
    · intro e he
      contradiction
  unfold Form.ofText at he
  dsimp only at he
  generalize (Scan.ofText text).events.foldl Composer.step .start = s at he hs
  unfold Composer.error? at he
  split at he
  · rename_i e' hfailed
    cases he
    exact hs _ hfailed
  · rename_i e' _ hscan
    cases he
    unfold Scan.error? at hscan
    obtain ⟨place, -, rfl⟩ := Option.map_eq_some_iff.mp hscan
    exact ⟨_, _, rfl⟩
  · cases he
    exact ⟨_, _, rfl⟩
  · contradiction

/-- Forms end with the error they came with, or with a complaint. -/
theorem isMalformed_of_readForms
    {ending : Option Error} {fs : List Form} {e : Error} (h : (readForms ending fs).ending = some e) :
  e.IsMalformed ∨ ending = some e
  := by
  induction fs with
  | nil => exact .inr h
  | cons f fs ih =>
    rw [readForms] at h
    split at h
    · rename_i e' hf
      cases h
      exact .inl (Form.complains_surface f _ hf)
    · exact ih h

/-- A text whose decimal integers are short is read, or cannot be read, or is complained about. -/
theorem of_readAll_error
    {text : String} (h : HasShortDecimals text) {e : Error} (he : Tree.readAll text = .error e) :
  e.IsMalformed ∨ e.IsUnreadable
  := by
  unfold Tree.readAll Reading.toExcept at he
  split at he
  · rename_i e' hending
    cases he
    obtain hmalformed | hending := isMalformed_of_readForms hending
    · exact .inl hmalformed
    · exact .inr (isUnreadable_of_ofText h hending)
  · contradiction

/-! ### Conversion -/

/-- Steps that draw names have a value or complain about the shape of a program. -/
def NamingComplains {α : Type} (step : Naming α) : Prop :=
  ∀ names, Complains (step names)

namespace NamingComplains

variable {α β : Type}

/-- A pure step does not complain. -/
theorem pure (a : α) : NamingComplains (pure a) := by
  intro names
  exact .ok _

/-- Drawing a name does not fail. -/
theorem fresh (base : String) : NamingComplains (freshName base) := by
  intro names
  exact .ok _

/-- Refusing a tree is a complaint. -/
theorem refuse (complaint : Complaint) (subject : Tree) :
  NamingComplains (Tree.refuse complaint subject : Naming α)
  := by
  intro names
  exact .malformed complaint none subject

/-- Steps that only complain do so in a sequence. -/
theorem bind {x : Naming α} {f : α → Naming β} (hx : NamingComplains x)
    (hf : ∀ a, NamingComplains (f a)) :
  NamingComplains (x >>= f)
  := by
  intro names
  exact .bind (hx names) fun r => hf r.1 r.2

end NamingComplains

namespace Tree

mutual

/-- Conversion succeeds or complains, whatever the tree. -/
theorem complains_convertNode : ∀ (k? : Option Tree) (t : Tree), NamingComplains (convertNode k? t)
  | k?, .literal _ | k?, .var _ | k?, .continuation _ _ => by
      rw [convertNode]
      exact .pure _
  | k?, .abstraction params body => by
      rw [convertNode]
      exact .bind (.fresh "k") fun k => .bind (complains_convertNode _ body) fun _ => .pure _
  | k?, .operation op operands => by
      rw [convertNode.eq_def]
      dsimp only
      split
      · exact .bind (complains_convertValues operands) fun _ => .pure _
      split
      · exact .refuse _ _
      · exact .bind (complains_convertParts operands) fun r =>
          complains_convertPending operands r.2 _
  | k?, .conditional sort test conseq alt => by
      rw [convertNode.eq_def]
      dsimp only
      split
      · exact .bind (complains_convertNode none test) fun _ =>
          .bind (complains_convertNode none conseq) fun _ =>
            .bind (complains_convertNode none alt) fun _ => .pure _
      · exact .pure _
      · apply NamingComplains.bind (complains_convertNode _ conseq)
        intro _
        apply NamingComplains.bind (complains_convertNode _ alt)
        intro _
        split
        · exact .bind (complains_convertNode none test) fun _ => .pure _
        · exact .bind (.fresh "s") fun s => complains_convertNode _ test
      · exact .refuse _ _
      · exact .refuse _ _
  | k?, .application rator rands => by
      rw [convertNode.eq_def]
      dsimp only
      split
      · exact .refuse _ _
      split
      · exact .bind (complains_convertNode none rator) fun _ =>
          .bind (complains_convertParts rands) fun r => complains_convertPending rands r.2 _
      · exact .bind (.fresh "s") fun s => .bind (complains_convertParts rands) fun r =>
          .bind (complains_convertPending rands r.2 _) fun _ => complains_convertNode _ rator
  | k?, .definition name params body own => by
      rw [convertNode.eq_def]
      dsimp only
      split
      · exact .refuse _ _
      · exact .refuse _ _
  | k?, .blank | k?, .resumption _ _ | k?, .entry _ _ _ _ _ | k?, .program _ _ | k?, .nothing
  | k?, .number _ | k?, .text _ | k?, .list _ | k?, .tuple _ => by
      rw [convertNode.eq_def]
      dsimp only
      split
      · exact .refuse _ _
      · exact .refuse _ _

/-- Conversion of values succeeds or complains. -/
theorem complains_convertValues : ∀ ts : List Tree, NamingComplains (convertValues ts)
  | [] => by
      rw [convertValues]
      exact .pure _
  | t :: ts => by
      rw [convertValues]
      exact .bind (complains_convertNode none t) fun _ => .bind (complains_convertValues ts)
        fun _ => .pure _

/-- Conversion of parts succeeds or complains. -/
theorem complains_convertParts : ∀ ts : List Tree, NamingComplains (convertParts ts)
  | [] => by
      rw [convertParts]
      exact .pure _
  | t :: ts => by
      rw [convertParts]
      split
      · exact .bind (complains_convertNode none t) fun _ => .bind (complains_convertParts ts)
          fun _ => .pure _
      · exact .bind (.fresh "s") fun _ => .bind (complains_convertParts ts) fun _ => .pure _

/-- Conversion of what is computed first succeeds or complains. -/
theorem complains_convertPending :
    ∀ (ts : List Tree) (pending : List (Option String)) (result : Tree),
      NamingComplains (convertPending ts pending result)
  | [], pending, result => by
      rw [convertPending]
      · exact .pure _
      all_goals intros; contradiction
  | t :: ts, [], result => by
      rw [convertPending]
      · exact .pure _
      all_goals intros; contradiction
  | t :: ts, none :: pending, result => by
      rw [convertPending]
      exact complains_convertPending ts pending result
  | t :: ts, some s :: pending, result => by
      rw [convertPending]
      exact .bind (complains_convertPending ts pending result) fun _ => complains_convertNode _ t

end

/-- Conversion of a definition that was read succeeds or complains. -/
theorem complains_convertDefinition
    (name : String) (params : List String) {body : Tree} (h : Surface true body)
    (own : Option String) :
  NamingComplains (definition name params body own).convertDefinition
  := by
  have hbody : ∀ (r : Renaming) (k : String),
      NamingComplains (convert (r.tree body) (some (var k))) := by
    intro r k
    rw [convert_eq_convertNode (Renaming.surface_tree h r)]
    exact complains_convertNode _ _
  rw [convertDefinition]
  refine .bind (.fresh name) fun self => .bind (.fresh "k") fun k => ?_
  split
  · have hnone := hbody none k
    rw [Renaming.tree_none h] at hnone
    rw [pure_bind]
    exact .bind hnone fun _ => .pure _
  · have hlift : ∀ t : Tree, (liftM (Except.ok t : Except Error Tree) : Naming Tree) = pure t :=
      fun t => rfl
    rw [Renaming.rename_eq h, hlift, pure_bind]
    exact .bind (hbody _ k) fun _ => .pure _

end Tree

/-! ### Definitions inside -/

/-- Where no definition may be nested, none is. -/
theorem Surface.holdsDefinition_eq_false {t : Tree} (h : Surface false t) :
  t.holdsDefinition = false
  := by
  induction h with
  | literal value => rfl
  | var x => rfl
  | operation _ _ ih => exact Tree.anyHoldsDefinition_eq_false.mpr ih
  | trivialConditional _ _ _ _ ihtest ihconseq ihalt =>
    rw [Tree.holdsDefinition, ihtest, ihconseq, ihalt]
    rfl
  | seriousConditional _ _ _ ihtest ihconseq ihalt =>
    rw [Tree.holdsDefinition, ihtest, ihconseq, ihalt]
    rfl
  | abstraction params _ ih => exact ih
  | definition name params hnested _ _ => contradiction
  | application _ _ ihrator ihrands =>
    rw [Tree.holdsDefinition, ihrator, Tree.anyHoldsDefinition_eq_false.mpr ihrands]
    rfl

/-- No node of the tree is a definition. -/
def Tree.HasNoDefinition (t : Tree) : Prop :=
  ∀ u, t.Contains u → u.isDefinition = false

/-- No node of a tree is a definition just when the tree is not one and no node of its children is. -/
theorem Tree.hasNoDefinition_iff {t : Tree} :
  t.HasNoDefinition ↔ t.isDefinition = false ∧ ∀ c ∈ t.children, c.HasNoDefinition
  := by
  constructor
  · intro ht
    exact ⟨ht t .refl, fun c hc u hu => ht u (contains_iff.mpr (.inr ⟨c, hc, hu⟩))⟩
  · rintro ⟨hdefinition, hchildren⟩ u hu
    obtain rfl | ⟨c, hc, hu⟩ := contains_iff.mp hu
    · exact hdefinition
    · exact hchildren c hc u hu

/-- A surface tree holds no definition just when no node in it is one. -/
theorem Surface.holdsDefinition_eq_false_iff {nested : Bool} {t : Tree} (h : Surface nested t) :
  t.holdsDefinition = false ↔ t.HasNoDefinition
  := by
  induction h with
  | literal value =>
    rw [Tree.hasNoDefinition_iff]
    simp [Tree.holdsDefinition, Tree.children, Tree.isDefinition]
  | var x =>
    rw [Tree.hasNoDefinition_iff]
    simp [Tree.holdsDefinition, Tree.children, Tree.isDefinition]
  | operation _ _ ih =>
    rw [Tree.hasNoDefinition_iff, Tree.holdsDefinition, Tree.anyHoldsDefinition_eq_false]
    exact ⟨fun ht => ⟨rfl, fun c hc => (ih c hc).mp (ht c hc)⟩,
      fun ht c hc => (ih c hc).mpr (ht.2 c hc)⟩
  | trivialConditional _ _ _ _ ihtest ihconseq ihalt =>
    rw [Tree.hasNoDefinition_iff]
    simp [Tree.holdsDefinition, Tree.children, Tree.isDefinition, ihtest, ihconseq, ihalt, and_assoc]
  | seriousConditional _ _ _ ihtest ihconseq ihalt =>
    rw [Tree.hasNoDefinition_iff]
    simp [Tree.holdsDefinition, Tree.children, Tree.isDefinition, ihtest, ihconseq, ihalt, and_assoc]
  | abstraction params _ ih =>
    rw [Tree.hasNoDefinition_iff]
    simp [Tree.holdsDefinition, Tree.children, Tree.isDefinition, ih]
  | definition name params _ _ _ =>
    rw [Tree.hasNoDefinition_iff]
    simp [Tree.holdsDefinition, Tree.isDefinition]
  | application _ _ ihrator ihrands =>
    rw [Tree.hasNoDefinition_iff, Tree.holdsDefinition, Bool.or_eq_false_iff,
      Tree.anyHoldsDefinition_eq_false, ihrator]
    simp only [Tree.children, Tree.isDefinition, List.forall_mem_cons, true_and]
    exact ⟨fun ht => ⟨ht.1, fun c hc => (ihrands c hc).mp (ht.2 c hc)⟩,
      fun ht => ⟨ht.1, fun c hc => (ihrands c hc).mpr (ht.2 c hc)⟩⟩

/-- The forms stand for definitions that hold no others and have different names, all of them not
seen before. -/
def AreSeparate (entry : String) (seen : List String) (forms : List Tree) : Prop :=
  (∀ t ∈ forms, (Definition.ofForm entry t).body.holdsDefinition = false
      ∧ (Definition.ofForm entry t).name ∉ seen)
    ∧ forms.Pairwise fun t t' => (Definition.ofForm entry t).name ≠ (Definition.ofForm entry t').name

/-- Forms are separate just when the first holds no definition and has a name not seen before, and
the others are separate where its name has been seen too. -/
theorem areSeparate_cons {entry : String} {seen : List String} {form : Tree} {forms : List Tree} :
  AreSeparate entry seen (form :: forms)
    ↔ (Definition.ofForm entry form).name ∉ seen
      ∧ (Definition.ofForm entry form).body.holdsDefinition = false
      ∧ AreSeparate entry ((Definition.ofForm entry form).name :: seen) forms
  := by
  constructor
  · rintro ⟨hforms, hpairwise⟩
    obtain ⟨⟨hholds, hunseen⟩, hforms⟩ := List.forall_mem_cons.mp hforms
    obtain ⟨hdiffer, hpairwise⟩ := List.pairwise_cons.mp hpairwise
    refine ⟨hunseen, hholds, fun t ht => ⟨(hforms t ht).1, ?_⟩, hpairwise⟩
    exact List.not_mem_cons_of_ne_of_not_mem (hdiffer t ht).symm (hforms t ht).2
  · rintro ⟨hunseen, hholds, hforms, hpairwise⟩
    have hrest : ∀ t ∈ forms, (Definition.ofForm entry form).name ≠ (Definition.ofForm entry t).name
        ∧ (Definition.ofForm entry t).name ∉ seen := by
      intro t ht
      have hunseen := (hforms t ht).2
      exact ⟨(List.ne_of_not_mem_cons hunseen).symm, List.not_mem_of_not_mem_cons hunseen⟩
    exact ⟨List.forall_mem_cons.mpr ⟨⟨hholds, hunseen⟩, fun t ht => ⟨(hforms t ht).1, (hrest t ht).2⟩⟩,
      List.pairwise_cons.mpr ⟨fun t ht => (hrest t ht).1, hpairwise⟩⟩

/-- Forms are separate just when no definition stands inside one of them and the names of what they
stand for differ. -/
theorem areSeparate_iff {entry : String} {forms : List Tree} (h : ∀ t ∈ forms, Surface true t) :
  AreSeparate entry [] forms
    ↔ (∀ t ∈ forms, ∀ c ∈ t.children, c.HasNoDefinition)
      ∧ (forms.map fun t => (Definition.ofForm entry t).name).Nodup
  := by
  have hbody : ∀ t ∈ forms, (Definition.ofForm entry t).body.holdsDefinition = false
      ↔ ∀ c ∈ t.children, c.HasNoDefinition := by
    intro t ht
    rw [(wrapEntry_eq entry (h t ht)).2.holdsDefinition_eq_false_iff]
    cases hdefinition : t.isDefinition with
    | true =>
      have hchildren : t.children = [(Definition.ofForm entry t).body] := by
        conv_lhs => rw [← Definition.toTree_ofForm entry (h t ht) hdefinition]
        rfl
      rw [hchildren, List.forall_mem_singleton]
    | false =>
      rw [Definition.ofForm_of_not_isDefinition entry hdefinition, Tree.hasNoDefinition_iff]
      exact and_iff_right hdefinition
  unfold AreSeparate List.Nodup
  rw [List.pairwise_map]
  apply and_congr_left'
  exact forall₂_congr fun t ht => (and_iff_left List.not_mem_nil).trans (hbody t ht)

/-! ### Compilation -/

/-- A step that may fail fails with its error. -/
theorem attempt_of_error {α : Type} {x : Except Error α} {e : Error} (h : x = .error e)
    (p : Progress) :
  (attempt x : Compile α) p = .error e p
  := by
  rw [h]
  rfl

/-- A step that draws names fails with its error. -/
theorem naming_of_error {α : Type} {step : Naming α} {e : Error} {p : Progress}
    (h : step p.names = .error e) :
  naming step p = .error e p
  := by
  rw [naming, h]

/-- A definition that was read is compiled just when it holds no definition, and otherwise it is
complained about. -/
theorem compileDefinition_cases (ak : String) {d : Definition} (hd : Surface true d.body)
    (p : Progress) :
  (d.body.holdsDefinition = false ∧ ∃ t p', compileDefinition ak d.toTree p = .ok t p')
    ∨ (d.body.holdsDefinition = true
      ∧ ∃ e p', compileDefinition ak d.toTree p = .error e p' ∧ e.IsMalformed)
  := by
  cases hholds : d.body.holdsDefinition with
  | false =>
    have hsurface := hd.of_not_holdsDefinition hholds
    obtain ⟨u, hu, habstracted⟩ := @Tree.convertDefinition_eq ak d.name d.params d.body none hsurface
      p.names.start p.names.next
    obtain ⟨t, ht, -⟩ := @exists_entryOf ak (d, p.names.next) hsurface
    refine .inl ⟨rfl, t, ?_⟩
    have hconverted := naming_eq_ok.mpr ⟨_, hu, rfl⟩
    exact ⟨_, (bind_of_ok hconverted).trans ((bind_of_ok rfl).trans
      ((bind_of_ok (attempt_eq_ok.mpr ⟨habstracted, rfl⟩)).trans ((bind_of_ok rfl).trans
        ((bind_of_ok (attempt_eq_ok.mpr ⟨ht, rfl⟩)).trans (bind_of_ok rfl)))))⟩
  | true =>
    right
    cases hconverted : d.toTree.convertDefinition p.names with
    | ok r =>
      have hsurface := Tree.surface_of_convertDefinition hd hconverted
      rw [hsurface.holdsDefinition_eq_false] at hholds
      contradiction
    | error e =>
      refine ⟨rfl, e, p, bind_of_error (naming_of_error hconverted), ?_⟩
      exact Tree.complains_convertDefinition d.name d.params hd none _ _ hconverted

/-- Forms that were read are compiled just when they are separate, and otherwise one of them is
complained about. -/
theorem compileDefinitions_cases
    (entry ak : String) {forms : List Tree} (hforms : ∀ t ∈ forms, Surface true t)
    (seen : List String) (p : Progress) :
  (AreSeparate entry seen forms
      ∧ ∃ ts p', compileDefinitions (.text entry) ak seen forms p = .ok ts p')
    ∨ (¬ AreSeparate entry seen forms
      ∧ ∃ e p', compileDefinitions (.text entry) ak seen forms p = .error e p' ∧ e.IsMalformed)
  := by
  induction forms generalizing seen p with
  | nil => exact .inl ⟨⟨List.forall_mem_nil _, .nil⟩, [], p, rfl⟩
  | cons form forms ih =>
    obtain ⟨hform, hforms⟩ := List.forall_mem_cons.mp hforms
    obtain ⟨hwrap, hbody⟩ := wrapEntry_eq entry hform
    have hname : (Definition.ofForm entry form).toTree.name?.getD ""
        = (Definition.ofForm entry form).name := rfl
    rw [areSeparate_cons, compileDefinitions, bind_of_ok (attempt_eq_ok.mpr ⟨hwrap, rfl⟩)]
    dsimp only
    rw [hname]
    by_cases hseen : (Definition.ofForm entry form).name ∈ seen
    · right
      rw [if_pos (List.contains_iff_mem.mpr hseen)]
      exact ⟨fun h => h.1 hseen, _, p, rfl, _, _, _, rfl⟩
    rw [if_neg (fun h => hseen (List.contains_iff_mem.mp h))]
    have hnote : note (.compiling (Definition.ofForm entry form).name) p
      = .ok () { p with notes := .compiling (Definition.ofForm entry form).name :: p.notes } := rfl
    rw [bind_of_ok hnote]
    obtain ⟨hholds, t, p₁, hfirst⟩ | ⟨hholds, e, p₁, hfirst, he⟩ := compileDefinition_cases ak hbody _
    · rw [bind_of_ok hfirst]
      obtain ⟨hseparate, ts, p₂, hrest⟩ | ⟨hseparate, e, p₂, hrest, he⟩ :=
        ih hforms ((Definition.ofForm entry form).name :: seen) p₁
      · exact .inl ⟨⟨hseen, hholds, hseparate⟩, t :: ts, p₂, bind_of_ok hrest⟩
      · exact .inr ⟨fun h => hseparate h.2.2, e, p₂, bind_of_error hrest, he⟩
    · right
      refine ⟨fun h => ?_, e, p₁, bind_of_error hfirst, he⟩
      rw [hholds] at h
      exact absurd h.2.1 (by decide)

/-- A text that cannot be read has the error of the reader. -/
theorem result_of_readAll_error {params : Parameters} {text : String} {e : Error}
    (hread : Tree.readAll text = .error e) {names : NameSource} :
  (compileText params text).result names = .error e
  := by
  have herror : compileText params text ⟨names, []⟩ = .error e ⟨names, []⟩ := by
    rw [compileText]
    exact bind_of_error (attempt_of_error hread _)
  rw [Compile.result, EStateM.run, herror]

/-- A text that was read is compiled just when its forms are separate, and otherwise one of them is
complained about. -/
theorem compileText_cases
    (entry : String) (runtime : Tree) {text : String} {forms : List Tree}
    (hread : Tree.readAll text = .ok forms) (names : NameSource) :
  (AreSeparate entry [] forms
      ∧ ∃ program, (compileText ⟨.text entry, runtime⟩ text).result names = .ok program)
    ∨ (¬ AreSeparate entry [] forms
      ∧ ∃ e, (compileText ⟨.text entry, runtime⟩ text).result names = .error e ∧ e.IsMalformed)
  := by
  have hstart : compileText ⟨.text entry, runtime⟩ text ⟨names, []⟩
      = compileForms ⟨.text entry, runtime⟩ forms ⟨names, []⟩ := by
    rw [compileText, bind_of_ok (attempt_eq_ok.mpr ⟨hread, rfl⟩)]
  obtain ⟨start, n⟩ := names
  have hhelpers : naming (fun names => .ok (helperNames names)) ⟨⟨start, n⟩, []⟩
      = .ok (helpersAt n) ⟨⟨start, n + 4⟩, []⟩ := by
    rw [naming_eq_ok, helperNames_eq]
    exact ⟨_, rfl, rfl⟩
  have hsurface := fun t ht => surface_of_readAll hread (t := t) ht
  obtain ⟨hseparate, ts, p, hts⟩ | ⟨hseparate, e, p, he, hmalformed⟩ :=
    compileDefinitions_cases entry (applyKName n) hsurface [] ⟨⟨start, n + 4⟩, []⟩
  · obtain ⟨hDs, -, hsuspended, -⟩ := of_compileDefinitions hsurface hts
    obtain ⟨es, names', hprogram, -⟩ :=
      exists_toProgram (fun d hd => (hDs d hd).1) hsuspended p.names
    refine .inl ⟨hseparate, Tree.programOf es (helpersAt n),
      result_eq_ok.mpr ⟨⟨names', .trampolined ts.length :: p.notes⟩, ?_⟩⟩
    rw [hstart, compileForms, compileReading, bind_of_ok hhelpers]
    exact (bind_of_ok hts).trans ((bind_of_ok (naming_eq_ok.mpr ⟨_, hprogram, rfl⟩)).trans
      (bind_of_ok rfl))
  · refine .inr ⟨hseparate, e, ?_, hmalformed⟩
    have herror : compileText ⟨.text entry, runtime⟩ text ⟨⟨start, n⟩, []⟩ = .error e p := by
      rw [hstart, compileForms, compileReading, bind_of_ok hhelpers]
      exact bind_of_error he
    rw [Compile.result, EStateM.run, herror]

/-- Compilation fails exactly when it should. A text that cannot be read has the error of the reader.
A text that can be read has a program just when no definition stands inside one of its forms and the
names of what its forms stand for differ; otherwise the text is malformed, and if its integers are
short, nothing else than a malformed or unreadable text is ever complained about. A program has
a source just when its integers are short. -/
theorem compileText_fails_exactly
    (entry : String) (runtime : Tree) (text : String) (names : NameSource) :
  let result := (compileText ⟨.text entry, runtime⟩ text).result names
  (∀ e, Tree.readAll text = .error e → result = .error e)
    ∧ (∀ forms, Tree.readAll text = .ok forms →
      ((∃ program, result = .ok program)
          ↔ (∀ form ∈ forms, ∀ c ∈ form.children, c.HasNoDefinition)
            ∧ (forms.map fun form => (Definition.ofForm entry form).name).Nodup)
        ∧ ∀ e, result = .error e → e.IsMalformed)
    ∧ (HasShortDecimals text → ∀ e, result = .error e → e.IsMalformed ∨ e.IsUnreadable)
    ∧ ∀ program, result = .ok program → ∀ source,
      ((∃ emitted, program.emitProgram source = .ok emitted) ↔ program.HasShortIntegers)
        ∧ ∀ e, program.emitProgram source = .error e → e = .fault .tooManyDigits
  := by
  refine ⟨?_, ?_, ?_, ?_⟩
  · intro e hread
    exact result_of_readAll_error hread
  · intro forms hread
    rw [← areSeparate_iff fun t ht => surface_of_readAll hread ht]
    obtain ⟨hseparate, program, hprogram⟩ | ⟨hseparate, e, he, hmalformed⟩ :=
      compileText_cases entry runtime hread names
    · refine ⟨iff_of_true ⟨program, hprogram⟩ hseparate, fun e he => ?_⟩
      rw [hprogram] at he
      cases he
    · refine ⟨iff_of_false ?_ hseparate, fun e' he' => ?_⟩
      · rintro ⟨program, hprogram⟩
        rw [he] at hprogram
        cases hprogram
      · rw [he] at he'
        cases he'
        exact hmalformed
  · intro hshort e he
    cases hread : Tree.readAll text with
    | error e' =>
      rw [result_of_readAll_error hread] at he
      cases he
      exact of_readAll_error hshort hread
    | ok forms =>
      obtain ⟨-, program, hprogram⟩ | ⟨-, e', he', hmalformed⟩ :=
        compileText_cases entry runtime hread names
      · rw [hprogram] at he
        cases he
      · rw [he'] at he
        cases he
        exact .inl hmalformed
  · intro program hprogram source
    obtain ⟨forms, es, -, rfl, hforms⟩ := entries_of_compileText hprogram
    have hes : ∀ e ∈ es, ∃ d, IsEntryOf d e := by
      intro e he
      obtain ⟨form, -, hform⟩ := exists_of_mem_right hforms he
      exact ⟨_, hform⟩
    obtain ⟨hshort, emitted, hemitted⟩ | ⟨hlong, herror⟩ :=
      Tree.emitProgram_cases hes names.next source
    · refine ⟨iff_of_true ⟨emitted, hemitted⟩ hshort, fun e he => ?_⟩
      rw [hemitted] at he
      cases he
    · refine ⟨iff_of_false ?_ hlong, fun e he => ?_⟩
      · rintro ⟨emitted, hemitted⟩
        rw [herror] at hemitted
        cases hemitted
      · rw [herror] at he
        cases he
        rfl

end Springboard
