import Springboard.Proofs.Failure
import Springboard.Proofs.Layout

/-!
# Reading inverts writing

An outline is what is written of a form: words and brackets, without places. A text writes outlines
when it is laid out from segments whose tokens are those of the outlines. Main statement: a text
that writes some outlines is read as the forms of these outlines and nothing else, and the trees
that are read do not depend on the layout.
-/

namespace Springboard

/-- A form as it is written. -/
inductive Outline
  | atom (word : Word)
  | group (bracket : Bracket) (members : List Outline)

namespace Outline

mutual

/-- The tokens of an outline. -/
def tokens : Outline → List Token
  | atom word => [.atom word]
  | group bracket members => .opening bracket :: tokensAll members ++ [.closing bracket]

/-- The tokens of some outlines. -/
def tokensAll : List Outline → List Token
  | [] => []
  | o :: os => tokens o ++ tokensAll os

end

mutual

/-- The form that is written so, at no place in particular. -/
def form : Outline → Except Fault Form
  | atom word => Form.ofAtom .start word.chars
  | group bracket members => do
    let members ← forms members
    .ok (.group .start bracket members)

/-- The forms that are written so. -/
def forms : List Outline → Except Fault (List Form)
  | [] => .ok []
  | o :: os => do
    let first ← form o
    let rest ← forms os
    .ok (first :: rest)

end

end Outline

namespace Form

mutual

/-- A form with its places forgotten. -/
def unplaced : Form → Form
  | symbol _ text => symbol .start text
  | number value => number value
  | group _ bracket members => group .start bracket (unplacedAll members)

/-- Some forms with their places forgotten. -/
def unplacedAll : List Form → List Form
  | [] => []
  | f :: fs => unplaced f :: unplacedAll fs

end

/-- Forms forget their places one by one. -/
theorem unplacedAll_append (fs gs : List Form) :
  unplacedAll (fs ++ gs) = unplacedAll fs ++ unplacedAll gs
  := by
  induction fs with
  | nil => rw [unplacedAll, List.nil_append, List.nil_append]
  | cons f fs ih => rw [List.cons_append, unplacedAll, unplacedAll, ih, List.cons_append]

/-- What an atom denotes does not depend on its place. -/
theorem ofAtom_start {place : Position} {text : List Char} {f : Form}
    (h : ofAtom place text = .ok f) :
  ofAtom .start text = .ok f.unplaced
  := by
  unfold ofAtom at h ⊢
  dsimp only at h ⊢
  split at h
  · cases h
    rw [unplaced]
  · contradiction
  · cases h
    rw [unplaced]

end Form

/-! ### Events that tell tokens -/

/-- Some events tell some tokens: these are their tokens, apart from line ends and comments. -/
inductive Tells : List Event → List Token → Prop
  | nil : Tells [] []
  | newline (place : Position) {events : List Event} {ts : List Token} (h : Tells events ts) :
      Tells (.newline place :: events) ts
  | comment (place : Position) (text : List Char) {events : List Event} {ts : List Token}
      (h : Tells events ts) : Tells (.comment place text :: events) ts
  | token (place : Position) (t : Token) {events : List Event} {ts : List Token}
      (h : Tells events ts) : Tells (t.event place :: events) (t :: ts)

namespace Tells

/-- Rows of events tell their tokens one after the other. -/
theorem append {es es' : List Event} {ts ts' : List Token} (h : Tells es ts) (h' : Tells es' ts') :
  Tells (es ++ es') (ts ++ ts')
  := by
  induction h with
  | nil => exact h'
  | newline place _ ih => exact .newline place ih
  | comment place text _ ih => exact .comment place text ih
  | token place t _ ih => exact .token place t ih

/-- The events of segments tell the tokens among them. -/
theorem eventsOf (before : List Char) (ps : List Segment) :
  Tells (Springboard.eventsOf before ps) (tokensOf ps)
  := by
  induction ps generalizing before with
  | nil => exact .nil
  | cons p ps ih =>
    have hsegment : Tells (p.events before) p.token?.toList := by
      cases p with
      | blank c hc =>
        rw [Segment.events]
        split
        · exact .newline _ .nil
        · exact .nil
      | comment text h => exact .comment _ _ (.newline _ .nil)
      | token t => exact .token _ _ .nil
    have htokens : tokensOf (p :: ps) = p.token?.toList ++ tokensOf ps := by
      cases p <;> rfl
    rw [Springboard.eventsOf, htokens]
    apply hsegment.append
    apply ih

/-- Events that tell a row of tokens tell its parts. -/
theorem exists_of_append {es : List Event} {ts us : List Token} (h : Tells es (ts ++ us)) :
  ∃ es₁ es₂, es = es₁ ++ es₂ ∧ Tells es₁ ts ∧ Tells es₂ us
  := by
  generalize htokens : ts ++ us = all at h
  induction h generalizing ts with
  | nil =>
    obtain ⟨rfl, rfl⟩ := List.append_eq_nil_iff.mp htokens
    exact ⟨[], [], rfl, .nil, .nil⟩
  | newline place _ ih =>
    obtain ⟨es₁, es₂, rfl, h₁, h₂⟩ := ih htokens
    exact ⟨.newline place :: es₁, es₂, rfl, .newline place h₁, h₂⟩
  | comment place text _ ih =>
    obtain ⟨es₁, es₂, rfl, h₁, h₂⟩ := ih htokens
    exact ⟨.comment place text :: es₁, es₂, rfl, .comment place text h₁, h₂⟩
  | @token place t events rest h ih =>
    cases ts with
    | nil =>
      cases htokens
      exact ⟨[], _, rfl, .nil, .token place t h⟩
    | cons t' ts =>
      obtain ⟨rfl, hrest⟩ := List.cons.inj htokens
      obtain ⟨es₁, es₂, rfl, h₁, h₂⟩ := ih hrest
      exact ⟨_ :: es₁, es₂, rfl, .token place t' h₁, h₂⟩

end Tells

/-! ### Putting forms together -/

namespace Composer

/-- A line end changes nothing. -/
theorem step_newline (s : Composer) (place : Position) : s.step (.newline place) = s := by
  rw [step]
  split <;> rfl

/-- A comment changes nothing. -/
theorem step_comment (s : Composer) (place : Position) (text : List Char) :
  s.step (.comment place text) = s
  := by
  rw [step]
  split <;> rfl

/-- Events without tokens change nothing. -/
theorem foldl_step_of_tells_nil {events : List Event} (h : Tells events []) (s : Composer) :
  events.foldl step s = s
  := by
  generalize htokens : [] = ts at h
  induction h with
  | nil => rfl
  | newline place _ ih => rw [List.foldl_cons, step_newline, ih htokens]
  | comment place text _ ih => rw [List.foldl_cons, step_comment, ih htokens]
  | token place t _ _ => contradiction

/-- Events with one token do what that token does. -/
theorem exists_foldl_step_of_tells {events : List Event} {t : Token} (h : Tells events [t])
    (s : Composer) :
  ∃ place, events.foldl step s = s.step (t.event place)
  := by
  generalize htokens : [t] = ts at h
  induction h with
  | nil => contradiction
  | newline place _ ih =>
    rw [List.foldl_cons, step_newline]
    apply ih htokens
  | comment place text _ ih =>
    rw [List.foldl_cons, step_comment]
    apply ih htokens
  | token place t' h _ =>
    obtain ⟨rfl, rfl⟩ := List.cons.inj htokens
    use place
    rw [List.foldl_cons, foldl_step_of_tells_nil h]

/-- A state in which nothing has failed. -/
def going (forms : List Form) (groups : List OpenGroup) : Composer :=
  ⟨forms, groups, none⟩

/-- Forms that are completed inside a group become members of it. -/
theorem foldl_add_group (fs forms : List Form) (g : OpenGroup) (outer : List OpenGroup) :
  fs.foldl add (going forms (g :: outer))
    = going forms ({ g with members := fs.reverse ++ g.members } :: outer)
  := by
  induction fs generalizing g with
  | nil => rfl
  | cons f fs ih =>
    have hadd : (going forms (g :: outer)).add f
        = going forms ({ g with members := f :: g.members } :: outer) := rfl
    rw [List.foldl_cons, hadd, ih]
    simp

/-- Forms that are completed outside of groups are forms of the text. -/
theorem foldl_add_top (fs forms : List Form) :
  fs.foldl add (going forms []) = going (fs.reverse ++ forms) []
  := by
  induction fs generalizing forms with
  | nil => rfl
  | cons f fs ih =>
    have hadd : (going forms []).add f = going (f :: forms) [] := rfl
    rw [List.foldl_cons, hadd, ih]
    simp

/-- A bracket that closes the innermost group completes it. -/
theorem step_closing (forms : List Form) (place place' : Position) (b : Bracket)
    (members : List Form) (outer : List OpenGroup) :
  (going forms (⟨place, b, members⟩ :: outer)).step (.closing place' b)
    = (going forms outer).add (.group place b members.reverse)
  := by
  simp [step, close, going]

end Composer

/-- A word that is no decimal integer with too many digits. -/
def Word.IsShort (word : Word) : Prop :=
  ∀ digits, Number.digits? Text.digitValue? (Number.splitSign word.chars).2 = some digits →
    digits.length ≤ Number.digitLimit

namespace Outline

open Composer

mutual

/-- Putting together the events of an outline completes its form. -/
theorem exists_foldl_step : ∀ (o : Outline), (∀ word, .atom word ∈ o.tokens → word.IsShort) →
    ∀ {events : List Event}, Tells events o.tokens →
      ∀ (forms : List Form) (groups : List OpenGroup),
      ∃ f, events.foldl step (going forms groups) = (going forms groups).add f
        ∧ o.form = .ok f.unplaced
  | .atom word, hshort, events, h, forms, groups => by
      rw [tokens] at h hshort
      obtain ⟨place, hstep⟩ := exists_foldl_step_of_tells h (going forms groups)
      obtain ⟨f, hf⟩ := exists_ofAtom place (hshort word List.mem_cons_self)
      have hadd : (going forms groups).step (.atom place word.chars)
          = (going forms groups).add f := by
        simp [step, going, hf]
      use f
      rw [hstep, Token.event, hadd, form]
      exact ⟨rfl, Form.ofAtom_start hf⟩
  | .group b members, hshort, events, h, forms, groups => by
      rw [tokens] at h hshort
      obtain ⟨opening, rest, rfl, hopening, hrest⟩ := @Tells.exists_of_append _ [.opening b] _ h
      obtain ⟨inner, closing, rfl, hinner, hclosing⟩ := hrest.exists_of_append
      obtain ⟨place, hstep⟩ := exists_foldl_step_of_tells hopening (going forms groups)
      have hopen : (going forms groups).step (.opening place b)
          = going forms (⟨place, b, []⟩ :: groups) := rfl
      obtain ⟨fs, hfs, hforms⟩ := exists_foldl_step_all members (by simp_all) hinner forms
        (⟨place, b, []⟩ :: groups)
      obtain ⟨place', hclose⟩ := exists_foldl_step_of_tells hclosing
        (going forms (⟨place, b, fs.reverse ++ []⟩ :: groups))
      use .group place b fs
      constructor
      · rw [List.foldl_append, List.foldl_append, hstep, Token.event, hopen, hfs, foldl_add_group,
          hclose, Token.event, step_closing, List.append_nil, List.reverse_reverse]
      · rw [form, hforms, Form.unplaced]
        rfl

/-- Putting together the events of outlines completes their forms. -/
theorem exists_foldl_step_all : ∀ (os : List Outline),
    (∀ word, .atom word ∈ tokensAll os → word.IsShort) →
    ∀ {events : List Event}, Tells events (tokensAll os) →
    ∀ (forms : List Form) (groups : List OpenGroup),
      ∃ fs, events.foldl step (going forms groups) = fs.foldl add (going forms groups)
        ∧ Outline.forms os = .ok (Form.unplacedAll fs)
  | [], _, events, h, forms, groups => by
      rw [tokensAll] at h
      use []
      rw [foldl_step_of_tells_nil h, Outline.forms, Form.unplacedAll]
      exact ⟨rfl, rfl⟩
  | o :: os, hshort, events, h, forms, groups => by
      rw [tokensAll] at h hshort
      obtain ⟨first, rest, rfl, hfirst, hrest⟩ := h.exists_of_append
      obtain ⟨f, hf, hform⟩ := exists_foldl_step o (by simp_all) hfirst forms groups
      have hgoing : ∃ forms' groups', (going forms groups).add f = going forms' groups' := by
        cases groups with
        | nil => exact ⟨_, _, rfl⟩
        | cons g groups => exact ⟨_, _, rfl⟩
      obtain ⟨forms', groups', hgoing⟩ := hgoing
      obtain ⟨fs, hfs, hforms⟩ := exists_foldl_step_all os (by simp_all) hrest forms' groups'
      use f :: fs
      rw [List.foldl_append, hf, hgoing, hfs, List.foldl_cons, hgoing, Outline.forms, hform, hforms,
        Form.unplacedAll]
      exact ⟨rfl, rfl⟩

end

end Outline

/-! ### Trees do not depend on places -/

/-- Two results that are the same value, or are both errors. -/
def Agree {α : Type} (x y : Except Error α) : Prop :=
  ∀ a, x = .ok a ↔ y = .ok a

namespace Agree

variable {α β : Type}

/-- A result agrees with itself. -/
theorem refl (x : Except Error α) : Agree x x :=
  fun _ => Iff.rfl

/-- Two errors agree. -/
theorem error (e e' : Error) : Agree (.error e : Except Error α) (.error e') := by
  intro a
  constructor <;> intro h <;> contradiction

/-- Steps that agree do so in a sequence. -/
theorem bind {x y : Except Error α} {f g : α → Except Error β} (hx : Agree x y)
    (hf : ∀ a, Agree (f a) (g a)) :
  Agree (x >>= f) (y >>= g)
  := by
  intro b
  rw [Except.bind_eq_ok, Except.bind_eq_ok]
  constructor
  · rintro ⟨a, ha, hb⟩
    exact ⟨a, (hx a).mp ha, (hf a b).mp hb⟩
  · rintro ⟨a, ha, hb⟩
    exact ⟨a, (hx a).mpr ha, (hf a b).mpr hb⟩

end Agree

namespace Form

/-- Symbols are read without their places. -/
theorem symbols?_unplacedAll (fs : List Form) : symbols? (unplacedAll fs) = symbols? fs := by
  induction fs with
  | nil => rw [unplacedAll]
  | cons f fs ih => cases f <;> simp [unplacedAll, unplaced, symbols?, ih]

/-- Parameters are read without their places. -/
theorem agree_params (head : String) (f : Form) :
  Agree (f.unplaced.params head) (f.params head)
  := by
  cases f with
  | symbol place text => exact .error _ _
  | number value => exact .error _ _
  | group place bracket members =>
    rw [unplaced, params, params, symbols?_unplacedAll]
    split
    · exact .refl _
    · exact .error _ _

/-- As many forms are left when their places are forgotten. -/
theorem length_unplacedAll (fs : List Form) : (unplacedAll fs).length = fs.length := by
  induction fs with
  | nil => rw [unplacedAll]
  | cons f fs ih => rw [unplacedAll, List.length_cons, List.length_cons, ih]

mutual

/-- The tree of a form does not depend on places. -/
theorem agree_surface : ∀ f : Form, Agree f.unplaced.surface f.surface
  | .symbol _ _ | .number _ => by
      simp only [unplaced, surface]
      exact .refl _
  | .group place bracket members => by
      rw [unplaced, surface, surface]
      exact agree_surfaceGroup _ _ members

/-- The tree of a group does not depend on places. -/
theorem agree_surfaceGroup (whole whole' : Form) :
    ∀ members, Agree (surfaceGroup whole (unplacedAll members)) (surfaceGroup whole' members)
  | [] => by
      rw [unplacedAll, surfaceGroup, surfaceGroup]
      exact .error _ _
  | .symbol place text :: rest => by
      rw [unplacedAll, unplaced, surfaceGroup.eq_def, surfaceGroup.eq_def whole']
      dsimp only
      split
      · exact agree_surfaceConnective whole whole' _ rest
      · match rest with
        | [test, conseq, alt] =>
          exact .bind (agree_surface test) fun _ => .bind (agree_surface conseq) fun _ =>
            .bind (agree_surface alt) fun _ => .refl _
        | [] | [_] | [_, _] | _ :: _ :: _ :: _ :: _ => exact .error _ _
      · match rest with
        | [params, body] =>
          exact .bind (agree_params text params) fun _ =>
            .bind (agree_surface body) fun _ => .refl _
        | [] | [_] | _ :: _ :: _ :: _ => exact .error _ _
      · match rest with
        | [.symbol _ name, params, body] =>
          exact .bind (agree_params text params) fun _ =>
            .bind (agree_surface body) fun _ => .refl _
        | [] | [.number _, _, _] | [.group _ _ _, _, _] => exact .error _ _
        | [name] | [name, _] | name :: _ :: _ :: _ :: _ =>
          cases name with
          | symbol place text => exact .error _ _
          | number value => exact .error _ _
          | group place bracket members => exact .error _ _
      · split
        · rw [length_unplacedAll]
          split
          · exact .bind (agree_surfaceAll rest) fun _ => .refl _
          · exact .error _ _
        · exact .bind (agree_surfaceAll rest) fun _ => .refl _
  | .number value :: rest => by
      rw [unplacedAll, unplaced, surfaceGroup, surfaceGroup]
      · exact .bind (.refl _) fun _ => .bind (agree_surfaceAll rest) fun _ => .refl _
      · intros
        contradiction
      · intros
        contradiction
  | .group place bracket members :: rest => by
      rw [unplacedAll, surfaceGroup, surfaceGroup]
      · exact .bind (agree_surface _) fun _ => .bind (agree_surfaceAll rest) fun _ => .refl _
      · intros
        contradiction
      · rw [unplaced]
        intros
        contradiction

/-- The tree of a connective does not depend on places. -/
theorem agree_surfaceConnective (whole whole' : Form) (c : Connective) :
    ∀ operands, Agree (surfaceConnective whole c (unplacedAll operands))
      (surfaceConnective whole' c operands)
  | [] => by
      rw [unplacedAll, surfaceConnective, surfaceConnective]
      exact .error _ _
  | first :: rest => by
      have hempty : (unplacedAll rest).isEmpty = rest.isEmpty := by
        cases rest with
        | nil => rw [unplacedAll]
        | cons f fs => rw [unplacedAll, List.isEmpty_cons, List.isEmpty_cons]
      rw [unplacedAll, surfaceConnective, surfaceConnective, hempty]
      split
      · exact agree_surface first
      · exact .bind (agree_surface first) fun _ =>
          .bind (agree_surfaceConnective whole whole' c rest) fun _ => .refl _

/-- The trees of forms do not depend on places. -/
theorem agree_surfaceAll : ∀ fs, Agree (surfaceAll (unplacedAll fs)) (surfaceAll fs)
  | [] => by
      rw [unplacedAll]
      exact .refl _
  | f :: fs => by
      rw [unplacedAll, surfaceAll, surfaceAll]
      exact .bind (agree_surface f) fun _ => .bind (agree_surfaceAll fs) fun _ => .refl _

end

end Form

/-- The trees of forms, and whether there is an error, do not depend on places. -/
theorem readForms_unplacedAll (fs : List Form) :
  (readForms none (Form.unplacedAll fs)).items = (readForms none fs).items
    ∧ ((readForms none (Form.unplacedAll fs)).ending = none ↔ (readForms none fs).ending = none)
  := by
  induction fs with
  | nil =>
    rw [Form.unplacedAll]
    exact ⟨rfl, Iff.rfl⟩
  | cons f fs ih =>
    obtain ⟨hitems, hending⟩ := ih
    have hagree := Form.agree_surface f
    rw [Form.unplacedAll, readForms, readForms]
    cases hsurface : f.surface with
    | ok t =>
      rw [(hagree t).mpr hsurface]
      exact ⟨congrArg (t :: ·) hitems, hending⟩
    | error e =>
      cases hunplaced : f.unplaced.surface with
      | ok t =>
        rw [(hagree t).mp hunplaced] at hsurface
        contradiction
      | error e' => exact ⟨rfl, by simp⟩

/-- A text is read as a whole just when none of its forms has an error. -/
theorem readAll_eq_ok {text : String} {ts : List Tree} :
  Tree.readAll text = .ok ts
    ↔ (Tree.readStream text).ending = none ∧ (Tree.readStream text).items = ts
  := by
  rw [Tree.readAll, Reading.toExcept]
  cases (Tree.readStream text).ending with
  | none => simp
  | some e => simp

/-! ### Texts -/

/-- A text that writes some outlines: it is laid out from segments, the tokens among which are those
of the outlines, and may end with a comment. -/
def Outline.Write (os : List Outline) (text : String) : Prop :=
  ∃ ps tail, Separated ps ∧ tokensOf ps = Outline.tokensAll os ∧ IsLastComment tail
    ∧ text.toList = charsOf ps ++ tail

/-- A text that writes outlines has their forms. -/
theorem exists_forms_of_write {os : List Outline}
    (hshort : ∀ word, .atom word ∈ Outline.tokensAll os → word.IsShort) {text : String}
    (h : Outline.Write os text) :
  ∃ fs, Form.ofText text = ⟨fs, none⟩ ∧ Outline.forms os = .ok (Form.unplacedAll fs)
  := by
  obtain ⟨ps, tail, hseparated, htokens, htail, htext⟩ := h
  have hscan := scan_eq_of_segments hseparated htail htext
  have htells : Tells (Scan.ofText text).events (Outline.tokensAll os) := by
    have hlast : Tells (lastEvents (charsOf ps) tail) [] := by
      rw [lastEvents]
      split
      · exact .nil
      · exact .comment _ _ .nil
    rw [hscan, ← htokens, ← List.append_nil (tokensOf ps)]
    exact (Tells.eventsOf [] ps).append hlast
  obtain ⟨fs, hfs, hforms⟩ := Outline.exists_foldl_step_all os hshort htells [] []
  have hstart : Composer.start = Composer.going [] [] := rfl
  have hstopped : (Scan.ofText text).error? = none := by
    rw [hscan]
    rfl
  refine ⟨fs, ?_, hforms⟩
  rw [Form.ofText, hstopped, hstart, hfs, Composer.foldl_add_top]
  simp [Composer.going, Composer.error?]

/-- **Reading inverts writing, whatever the layout.** A text that writes some outlines, with blanks
and comments wherever tokens may be kept apart, is read as the forms of the outlines: one for each,
in order, with the same brackets, and with what the words denote for atoms. Nothing is left at the
end. The trees that are read, up to the first form that has none, are the same for every text that
writes these outlines. -/
theorem ofText_of_write
    (os : List Outline) (hshort : ∀ word, .atom word ∈ Outline.tokensAll os → word.IsShort)
    (text : String) (h : Outline.Write os text) :
  (∃ fs, Form.ofText text = ⟨fs, none⟩ ∧ Outline.forms os = .ok (Form.unplacedAll fs))
    ∧ ∀ text', Outline.Write os text' →
      (Tree.readStream text').items = (Tree.readStream text).items
        ∧ ∀ ts, Tree.readAll text' = .ok ts ↔ Tree.readAll text = .ok ts
  := by
  obtain ⟨fs, hfs, hforms⟩ := exists_forms_of_write hshort h
  refine ⟨⟨fs, hfs, hforms⟩, ?_⟩
  intro text' h'
  obtain ⟨fs', hfs', hforms'⟩ := exists_forms_of_write hshort h'
  obtain ⟨hitems, hending⟩ := readForms_unplacedAll fs
  obtain ⟨hitems', hending'⟩ := readForms_unplacedAll fs'
  have hunplaced : Form.unplacedAll fs' = Form.unplacedAll fs :=
    Except.ok.inj (hforms'.symm.trans hforms)
  have hstream : Tree.readStream text = readForms none fs := by
    rw [Tree.readStream, hfs]
  have hstream' : Tree.readStream text' = readForms none fs' := by
    rw [Tree.readStream, hfs']
  rw [hunplaced] at hitems' hending'
  have hsame : (Tree.readStream text').items = (Tree.readStream text).items := by
    rw [hstream, hstream', ← hitems, ← hitems']
  refine ⟨hsame, fun ts => ?_⟩
  rw [readAll_eq_ok, readAll_eq_ok, hsame, hstream, hstream', ← hending, ← hending']

/-- The words of a small text. -/
def smallWord (c : Char) (h : isAtomChar c) : Word :=
  ⟨[c], List.cons_ne_nil c [], by simpa using h⟩

/-- A word of one character is short. -/
theorem smallWord_isShort (c : Char) (h : isAtomChar c) : (smallWord c h).IsShort := by
  intro digits hdigits
  have hsign : Number.splitSign [c] = (true, []) ∨ Number.splitSign [c] = (false, [c]) := by
    unfold Number.splitSign
    split
    · simp_all
    · exact .inr rfl
  obtain hsign | hsign := hsign
  · rw [smallWord, hsign] at hdigits
    contradiction
  · rw [smallWord, hsign, Number.digits?] at hdigits
    cases hvalue : Text.digitValue? c with
    | none => simp [hvalue] at hdigits
    | some digit =>
      simp only [hvalue, List.isEmpty_cons, List.mapM_cons, List.mapM_nil] at hdigits
      cases hdigits
      exact show 1 ≤ Number.digitLimit by decide

/-- The outlines of a small text: a group with a group inside, and an atom. -/
def smallOutlines : List Outline :=
  [.group .round [.atom (smallWord 'f' rfl),
      .group .square [.atom (smallWord 'x' rfl), .atom (smallWord '7' rfl)], .group .square []],
    .atom (smallWord 'y' rfl)]

/-- A text with comments and without a blank that could be left out is read as another with the same
outlines. -/
theorem ofText_of_write_smallOutlines :
  Outline.Write smallOutlines "(f[x 7][])y"
    ∧ Outline.Write smallOutlines "; (\n( f;[\n[x\t7 ] [ ]) y ;)"
    ∧ (∃ fs, Form.ofText "(f[x 7][])y" = ⟨fs, none⟩
      ∧ Outline.forms smallOutlines = .ok (Form.unplacedAll fs))
    ∧ (Tree.readStream "; (\n( f;[\n[x\t7 ] [ ]) y ;)").items
      = (Tree.readStream "(f[x 7][])y").items
  := by
  have htight : Outline.Write smallOutlines "(f[x 7][])y" := by
    refine ⟨[.token (.opening .round), .token (.atom (smallWord 'f' rfl)),
      .token (.opening .square), .token (.atom (smallWord 'x' rfl)), .blank ' ' rfl,
      .token (.atom (smallWord '7' rfl)),
      .token (.closing .square), .token (.opening .square), .token (.closing .square),
      .token (.closing .round), .token (.atom (smallWord 'y' rfl))], [], ?_, rfl, .inl rfl,
      by decide⟩
    simp [Separated, Segment.isAtom]
  have hloose : Outline.Write smallOutlines "; (\n( f;[\n[x\t7 ] [ ]) y ;)" := by
    refine ⟨[.comment [' ', '('] (by decide), .token (.opening .round), .blank ' ' rfl,
      .token (.atom (smallWord 'f' rfl)), .comment ['['] (by decide), .token (.opening .square),
      .token (.atom (smallWord 'x' rfl)), .blank '\t' rfl, .token (.atom (smallWord '7' rfl)),
      .blank ' ' rfl, .token (.closing .square), .blank ' ' rfl, .token (.opening .square),
      .blank ' ' rfl, .token (.closing .square), .token (.closing .round), .blank ' ' rfl,
      .token (.atom (smallWord 'y' rfl)), .blank ' ' rfl], [';', ')'], ?_, rfl,
      .inr ⟨[')'], rfl, by decide⟩, by decide⟩
    simp [Separated, Segment.isAtom]
  have hshort : ∀ word, .atom word ∈ Outline.tokensAll smallOutlines → word.IsShort := by
    intro word hword
    simp only [smallOutlines, Outline.tokensAll, Outline.tokens] at hword
    simp at hword
    obtain rfl | rfl | rfl | rfl := hword
    all_goals apply smallWord_isShort
  obtain ⟨hforms, hlayout⟩ := ofText_of_write smallOutlines hshort "(f[x 7][])y" htight
  exact ⟨htight, hloose, hforms, (hlayout _ hloose).1⟩

end Springboard
