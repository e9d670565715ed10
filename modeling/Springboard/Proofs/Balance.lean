import Springboard.Proofs.Reading

/-!
# Texts that cannot be read

Outside of its comments a text has to be well bracketed, and must not hold a quotation mark. Main
statement: reading fails exactly if this is not so. The place of the error is that of the first
character that is wrong where it stands, or if there is none, that of the innermost bracket that is
never closed; and all forms that are complete by then have been read.
-/

namespace Springboard

/-! ### Characters outside of comments -/

/-- Whether a comment goes on behind some characters, where `inside` tells whether it does in front
of them. A comment begins with a semicolon and ends with the line. -/
def commentAfter (inside : Bool) : List Char → Bool
  | [] => inside
  | c :: cs => commentAfter (c != '\n' && (inside || c == ';')) cs

/-- The characters outside of comments. -/
def uncommented (inside : Bool) : List Char → List Char
  | [] => []
  | c :: cs =>
    if c != '\n' && (inside || c == ';') then uncommented true cs else c :: uncommented false cs

theorem commentAfter_append (inside : Bool) (cs ds : List Char) :
  commentAfter inside (cs ++ ds) = commentAfter (commentAfter inside cs) ds
  := by
  induction cs generalizing inside with
  | nil => rfl
  | cons c cs ih => apply ih

theorem uncommented_append (inside : Bool) (cs ds : List Char) :
  uncommented inside (cs ++ ds)
    = uncommented inside cs ++ uncommented (commentAfter inside cs) ds
  := by
  induction cs generalizing inside with
  | nil => rfl
  | cons c cs ih =>
    rw [List.cons_append, uncommented, uncommented, commentAfter]
    cases c != '\n' && (inside || c == ';') with
    | false => simp [ih]
    | true => simp [ih]

/-- A character that begins no comment is outside of comments if none goes on. -/
theorem uncommented_cons {c : Char} (hc : c ≠ ';') (cs : List Char) :
  uncommented false (c :: cs) = c :: uncommented false cs
  := by
  simp [uncommented, hc]

/-- Characters that begin no comment are all outside of comments if none goes on. -/
theorem uncommented_eq_self {cs : List Char} (h : ';' ∉ cs) :
  uncommented false cs = cs ∧ commentAfter false cs = false
  := by
  induction cs with
  | nil => exact ⟨rfl, rfl⟩
  | cons c cs ih =>
    rw [List.mem_cons, not_or] at h
    obtain ⟨hself, hafter⟩ := ih h.2
    have hc : (c == ';') = false := beq_eq_false_iff_ne.mpr (Ne.symm h.1)
    rw [uncommented_cons (Ne.symm h.1), hself, commentAfter]
    simpa [hc] using hafter

/-- The rest of a comment is inside of it. -/
theorem uncommented_comment {text : List Char} (h : '\n' ∉ text) :
  uncommented true text = [] ∧ commentAfter true text = true
  := by
  induction text with
  | nil => exact ⟨rfl, rfl⟩
  | cons c cs ih =>
    rw [List.mem_cons, not_or] at h
    have hc : (c != '\n') = true := bne_iff_ne.mpr (Ne.symm h.1)
    rw [uncommented, commentAfter, hc]
    exact ih h.2

/-- A last comment has no characters outside. -/
theorem uncommented_lastComment {tail : List Char} (h : IsLastComment tail) :
  uncommented false tail = []
  := by
  obtain rfl | ⟨text, rfl, htext⟩ := h
  · rfl
  · exact (uncommented_comment htext).1

/-! ### Brackets -/

/-- Characters that are well bracketed, with each kind of bracket closed by its own. -/
inductive WellBracketed : List Char → Prop
  | nil : WellBracketed []
  | other {c : Char} {cs : List Char} (hc : ∀ b : Bracket, c ≠ b.opener ∧ c ≠ b.closer)
      (h : WellBracketed cs) : WellBracketed (c :: cs)
  | group (b : Bracket) {inner rest : List Char} (hinner : WellBracketed inner)
      (hrest : WellBracketed rest) : WellBracketed (b.opener :: inner ++ b.closer :: rest)

theorem WellBracketed.append {cs ds : List Char} (h : WellBracketed cs) (h' : WellBracketed ds) :
  WellBracketed (cs ++ ds)
  := by
  induction h with
  | nil => exact h'
  | other hc _ ih => exact .other hc ih
  | group b hinner _ _ ih =>
    rw [List.append_assoc, List.cons_append]
    exact .group b hinner ih

/-- The open brackets behind a further character, the innermost first, if no bracket is closed by
the wrong kind. -/
def nestingStep (opened : List Bracket) (c : Char) : Option (List Bracket) :=
  if c = '(' then some (.round :: opened)
  else if c = '[' then some (.square :: opened)
  else if c = ')' then if opened.head? = some .round then some opened.tail else none
  else if c = ']' then if opened.head? = some .square then some opened.tail else none
  else some opened

/-- The open brackets behind some characters. -/
def nesting (opened : List Bracket) (cs : List Char) : Option (List Bracket) :=
  cs.foldlM nestingStep opened

theorem nesting_append (opened : List Bracket) (cs ds : List Char) :
  nesting opened (cs ++ ds) = (nesting opened cs).bind fun opened' => nesting opened' ds
  := List.foldlM_append

theorem nesting_cons (opened : List Bracket) (c : Char) (cs : List Char) :
  nesting opened (c :: cs) = (nestingStep opened c).bind fun opened' => nesting opened' cs
  := List.foldlM_cons

@[simp]
theorem nestingStep_opener (opened : List Bracket) (b : Bracket) :
  nestingStep opened b.opener = some (b :: opened)
  := by
  cases b <;> rfl

@[simp]
theorem nestingStep_closer (opened : List Bracket) (b : Bracket) :
  nestingStep opened b.closer = if opened.head? = some b then some opened.tail else none
  := by
  cases b <;> rfl

/-- Well bracketed characters leave the open brackets as they are. -/
theorem WellBracketed.nesting {cs : List Char} (h : WellBracketed cs) (opened : List Bracket) :
  Springboard.nesting opened cs = some opened
  := by
  induction h generalizing opened with
  | nil => rfl
  | @other c cs hc _ ih =>
    have hround := hc .round
    have hsquare := hc .square
    have hstep : nestingStep opened c = some opened := by
      simp_all [nestingStep, Bracket.opener, Bracket.closer]
    rw [nesting_cons, hstep, Option.bind_some, ih]
  | group b _ _ ihinner ihrest =>
    rw [List.cons_append, nesting_cons, nestingStep_opener, Option.bind_some, nesting_append,
      ihinner, Option.bind_some, nesting_cons, nestingStep_closer]
    simp [ihrest]

/-! ### Misplaced characters -/

/-- A character that cannot stand behind some others: a quotation mark, or a closing bracket where
no bracket is open or where the innermost open one is of the other kind. -/
def IsMisplaced (before : List Char) (c : Char) : Prop :=
  c = stringMark ∨ ∃ b : Bracket, c = b.closer
    ∧ (WellBracketed before
      ∨ ∃ outer b' inner, before = outer ++ b'.opener :: inner ∧ WellBracketed inner ∧ b' ≠ b)

/-- No character of a text outside of comments is misplaced. -/
def HasNoMisplaced (text : List Char) : Prop :=
  ∀ before c after, text = before ++ c :: after → commentAfter false before = false →
    ¬ IsMisplaced (uncommented false before) c

/-- The first misplaced character of a text stands behind `before`. -/
def FirstMisplaced (text before : List Char) : Prop :=
  HasNoMisplaced before ∧ commentAfter false before = false
    ∧ ∃ c after, text = before ++ c :: after ∧ IsMisplaced (uncommented false before) c

/-- The innermost bracket that a text leaves open stands behind `before`. -/
def LastOpen (text before : List Char) : Prop :=
  commentAfter false before = false
    ∧ ∃ b : Bracket, ∃ after, text = before ++ b.opener :: after
      ∧ WellBracketed (uncommented false after)

/-- A closing bracket that is misplaced closes nothing. -/
theorem nesting_of_misplaced {before : List Char} {b : Bracket}
    (h : WellBracketed before
      ∨ ∃ outer b' inner, before = outer ++ b'.opener :: inner ∧ WellBracketed inner ∧ b' ≠ b)
    (after : List Char) :
  nesting [] (before ++ b.closer :: after) = none
  := by
  rw [nesting_append]
  obtain h | ⟨outer, b', inner, rfl, hinner, hne⟩ := h
  · rw [h.nesting, Option.bind_some, nesting_cons, nestingStep_closer]
    rfl
  · rw [nesting_append]
    cases nesting [] outer with
    | none => rfl
    | some opened =>
      rw [Option.bind_some, nesting_cons, nestingStep_opener, Option.bind_some, hinner.nesting,
        Option.bind_some, nesting_cons, nestingStep_closer]
      simp [hne]

/-- Where every closing bracket closes something and there is no quotation mark, nothing is
misplaced. -/
theorem hasNoMisplaced_of_nesting {text : List Char} {opened : List Bracket}
    (h : nesting [] (uncommented false text) = some opened)
    (hmark : stringMark ∉ uncommented false text) :
  HasNoMisplaced text
  := by
  rintro before c after rfl hafter hmisplaced
  have hc : c ≠ ';' := by
    rintro rfl
    obtain heq | ⟨b, heq, -⟩ := hmisplaced
    · contradiction
    · cases b <;> contradiction
  have hsplit : uncommented false (before ++ c :: after)
      = uncommented false before ++ c :: uncommented false after := by
    rw [uncommented_append, hafter, uncommented_cons hc]
  rw [hsplit] at h hmark
  obtain rfl | ⟨b, rfl, hmisplaced⟩ := hmisplaced
  · simp at hmark
  · rw [nesting_of_misplaced hmisplaced] at h
    contradiction

/-! ### Segments -/

/-- The characters of a segment that are outside of comments. -/
def Segment.visible : Segment → List Char
  | blank c _ => [c]
  | comment _ _ => ['\n']
  | token t => t.chars

/-- The characters of some segments that are outside of comments. -/
def visibleOf (ps : List Segment) : List Char :=
  ps.flatMap Segment.visible

@[simp]
theorem visibleOf_append (ps qs : List Segment) :
  visibleOf (ps ++ qs) = visibleOf ps ++ visibleOf qs
  := List.flatMap_append

theorem visibleOf_opening (b : Bracket) (ps : List Segment) :
  visibleOf (.token (.opening b) :: ps) = b.opener :: visibleOf ps
  := rfl

theorem charsOf_opening (b : Bracket) (ps : List Segment) :
  charsOf (.token (.opening b) :: ps) = b.opener :: charsOf ps
  := rfl

/-- A token holds no semicolon and no quotation mark. -/
theorem Token.notMem_chars (t : Token) : ';' ∉ t.chars ∧ stringMark ∉ t.chars := by
  cases t with
  | opening b => cases b <;> decide
  | closing b => cases b <;> decide
  | atom word =>
    constructor
    · intro hmem
      exact (of_isAtomChar (word.isAtomChar_of_mem _ hmem)).2.2.2.2.2.1 rfl
    · intro hmem
      exact (of_isAtomChar (word.isAtomChar_of_mem _ hmem)).2.2.2.2.2.2 rfl

/-- A segment ends outside of comments. -/
theorem Segment.uncommented_chars (p : Segment) :
  uncommented false p.chars = p.visible ∧ commentAfter false p.chars = false
    ∧ stringMark ∉ p.visible
  := by
  cases p with
  | blank c hc =>
    have hsemicolon : ';' ∉ [c] := by
      rw [List.mem_singleton]
      rintro rfl
      contradiction
    have hmark : stringMark ∉ [c] := by
      rw [List.mem_singleton]
      rintro rfl
      contradiction
    obtain ⟨hself, hafter⟩ := uncommented_eq_self hsemicolon
    exact ⟨hself, hafter, hmark⟩
  | comment text h =>
    obtain ⟨hinside, hafter⟩ := uncommented_comment h
    have hchars : uncommented false (';' :: text ++ ['\n']) = ['\n'] := by
      have hstart : uncommented false (';' :: text ++ ['\n'])
          = uncommented true (text ++ ['\n']) := rfl
      rw [hstart, uncommented_append, hinside, hafter]
      rfl
    have hend : commentAfter false (';' :: text ++ ['\n']) = false := by
      have hstart : commentAfter false (';' :: text ++ ['\n'])
          = commentAfter true (text ++ ['\n']) := rfl
      rw [hstart, commentAfter_append, hafter]
      rfl
    exact ⟨hchars, hend, by simp [visible, show stringMark ≠ '\n' by decide]⟩
  | token t =>
    obtain ⟨hsemicolon, hmark⟩ := t.notMem_chars
    obtain ⟨hself, hafter⟩ := uncommented_eq_self hsemicolon
    exact ⟨hself, hafter, hmark⟩

/-- Segments end outside of comments. -/
theorem uncommented_charsOf (ps : List Segment) :
  uncommented false (charsOf ps) = visibleOf ps ∧ commentAfter false (charsOf ps) = false
    ∧ stringMark ∉ visibleOf ps
  := by
  induction ps with
  | nil => exact ⟨rfl, rfl, List.not_mem_nil⟩
  | cons p ps ih =>
    obtain ⟨hvisible, hafter, hmark⟩ := p.uncommented_chars
    obtain ⟨hvisibles, hafters, hmarks⟩ := ih
    have hchars : charsOf (p :: ps) = p.chars ++ charsOf ps := rfl
    have hvisibleOf : visibleOf (p :: ps) = p.visible ++ visibleOf ps := rfl
    rw [hchars, hvisibleOf, uncommented_append, commentAfter_append, hvisible, hafter, hvisibles]
    exact ⟨rfl, hafters, by simp [hmark, hmarks]⟩

/-- What follows segments is outside of comments unless it is in comments of its own. -/
theorem uncommented_charsOf_append (ps : List Segment) (cs : List Char) :
  uncommented false (charsOf ps ++ cs) = visibleOf ps ++ uncommented false cs
  := by
  obtain ⟨hvisible, hafter, -⟩ := uncommented_charsOf ps
  rw [uncommented_append, hvisible, hafter]

/-- A segment that is no bracket is well bracketed. -/
theorem Segment.wellBracketed_visible {p : Segment}
    (hp : ∀ b, p ≠ .token (.opening b) ∧ p ≠ .token (.closing b)) :
  WellBracketed p.visible
  := by
  have hword : ∀ cs : List Char, (∀ c ∈ cs, ∀ b : Bracket, c ≠ b.opener ∧ c ≠ b.closer) →
      WellBracketed cs := by
    intro cs hcs
    induction cs with
    | nil => exact .nil
    | cons c cs ih =>
      obtain ⟨hc, hcs⟩ := List.forall_mem_cons.mp hcs
      exact .other hc (ih hcs)
  apply hword
  cases p with
  | blank c hc =>
    intro x hx b
    rw [visible, List.mem_singleton] at hx
    subst hx
    constructor
    · rintro rfl
      cases b <;> contradiction
    · rintro rfl
      cases b <;> contradiction
  | comment text h =>
    intro x hx b
    rw [visible, List.mem_singleton] at hx
    subst hx
    cases b <;> decide
  | token t =>
    cases t with
    | opening b => exact absurd rfl (hp b).1
    | closing b => exact absurd rfl (hp b).2
    | atom word =>
      intro x hx b
      obtain ⟨-, hopen, hclose, hopen', hclose', -, -⟩ :=
        of_isAtomChar (word.isAtomChar_of_mem x hx)
      cases b with
      | round => exact ⟨hopen, hclose⟩
      | square => exact ⟨hopen', hclose'⟩

/-! ### Open groups -/

theorem Outline.tokensAll_append (os os' : List Outline) :
  tokensAll (os ++ os') = tokensAll os ++ tokensAll os'
  := by
  induction os with
  | nil => rw [List.nil_append, tokensAll, List.nil_append]
  | cons o os ih => rw [List.cons_append, tokensAll, tokensAll, ih, List.append_assoc]

/-- The forms of outlines with one more behind them. -/
theorem Outline.forms_concat {os : List Outline} {fs : List Form} (h : forms os = .ok fs)
    {o : Outline} {f : Form} (ho : o.form = .ok f) :
  forms (os ++ [o]) = .ok (fs ++ [f])
  := by
  induction os generalizing fs with
  | nil =>
    rw [forms] at h
    cases h
    rw [List.nil_append, forms, ho]
    rfl
  | cons o' os ih =>
    rw [forms, Except.bind_eq_ok] at h
    obtain ⟨f', hf', h⟩ := h
    rw [Except.bind_eq_ok] at h
    obtain ⟨fs', hfs', h⟩ := h
    cases h
    rw [List.cons_append, forms, hf', ih hfs']
    rfl

/-- Segments that consist of complete outlines; their forms are given with the last first. -/
structure Complete (ps : List Segment) (fs : List Form) : Prop where
  wellBracketed : WellBracketed (visibleOf ps)
  exists_outlines : ∃ os, tokensOf ps = Outline.tokensAll os
    ∧ Outline.forms os = .ok (Form.unplacedAll fs.reverse)

namespace Complete

variable {ps : List Segment} {fs : List Form}

/-- No segments consist of no outlines. -/
theorem nil : Complete [] [] where
  wellBracketed := .nil
  exists_outlines := ⟨[], rfl, rfl⟩

/-- A segment that is no token may follow. -/
theorem skip (h : Complete ps fs) {p : Segment} (hp : p.token? = none) :
  Complete (ps ++ [p]) fs
  := by
  obtain ⟨os, htokens, hforms⟩ := h.exists_outlines
  have hbrackets : ∀ b, p ≠ .token (.opening b) ∧ p ≠ .token (.closing b) := by
    intro b
    constructor <;> rintro rfl <;> contradiction
  constructor
  · rw [visibleOf_append]
    apply h.wellBracketed.append
    simpa [visibleOf] using Segment.wellBracketed_visible hbrackets
  · refine ⟨os, ?_, hforms⟩
    simpa [tokensOf, hp] using htokens

/-- The segments of an outline may follow. -/
theorem add (h : Complete ps fs) {qs : List Segment} (hqs : WellBracketed (visibleOf qs))
    {o : Outline} (ho : tokensOf qs = o.tokens) {f : Form} (hf : o.form = .ok f.unplaced) :
  Complete (ps ++ qs) (f :: fs)
  := by
  obtain ⟨os, htokens, hforms⟩ := h.exists_outlines
  constructor
  · rw [visibleOf_append]
    apply h.wellBracketed.append hqs
  · use os ++ [o]
    constructor
    · rw [tokensOf_append, htokens, ho, Outline.tokensAll_append, Outline.tokensAll,
        Outline.tokensAll, List.append_nil]
    · rw [Outline.forms_concat hforms hf, List.reverse_cons, Form.unplacedAll_append,
        Form.unplacedAll, Form.unplacedAll]

end Complete

/-- Segments that consist of complete outlines and of groups that are open, each with complete
outlines in it. The forms of the outlines outside of the groups are given, and the groups, the
innermost first. -/
inductive Standing : List Segment → List Form → List OpenGroup → Prop
  | outside {ps : List Segment} {fs : List Form} (h : Complete ps fs) : Standing ps fs []
  | inside {ps qs : List Segment} {fs members : List Form} {groups : List OpenGroup}
      (h : Standing ps fs groups) (b : Bracket) (hqs : Complete qs members) :
      Standing (ps ++ .token (.opening b) :: qs) fs
        (⟨placeAfter (charsOf ps), b, members⟩ :: groups)

namespace Standing

open Composer

variable {ps : List Segment} {fs : List Form} {groups : List OpenGroup}

/-- A segment that is no token changes nothing. -/
theorem skip (h : Standing ps fs groups) {p : Segment} (hp : p.token? = none) :
  Standing (ps ++ [p]) fs groups
  := by
  cases h with
  | outside h => exact .outside (h.skip hp)
  | inside h b hqs =>
    rw [List.append_assoc, List.cons_append]
    exact .inside h b (hqs.skip hp)

/-- The segments of an outline complete its form. -/
theorem add (h : Standing ps fs groups) {qs : List Segment} (hqs : WellBracketed (visibleOf qs))
    {o : Outline} (ho : tokensOf qs = o.tokens) {f : Form} (hf : o.form = .ok f.unplaced) :
  ∃ fs' groups', (going fs groups).add f = going fs' groups' ∧ Standing (ps ++ qs) fs' groups'
  := by
  cases h with
  | outside h => exact ⟨_, _, rfl, .outside (h.add hqs ho hf)⟩
  | inside h b hqs' =>
    refine ⟨_, _, rfl, ?_⟩
    rw [List.append_assoc, List.cons_append]
    exact .inside h b (hqs'.add hqs ho hf)

/-- The bracket of its kind closes the innermost group. -/
theorem close {place : Position} {b : Bracket} {members : List Form}
    (h : Standing ps fs (⟨place, b, members⟩ :: groups)) :
  ∃ fs' groups', (going fs groups).add (.group place b members.reverse) = going fs' groups'
    ∧ Standing (ps ++ [.token (.closing b)]) fs' groups'
  := by
  cases h with
  | @inside ps qs _ _ _ h _ hqs =>
    obtain ⟨os, htokens, hforms⟩ := hqs.exists_outlines
    have hvisible : WellBracketed
        (visibleOf (.token (.opening b) :: qs ++ [.token (.closing b)])) := by
      have hgroup := WellBracketed.group b hqs.wellBracketed .nil
      simpa [visibleOf, Segment.visible, Token.chars] using hgroup
    have hgroup : tokensOf (.token (.opening b) :: qs ++ [.token (.closing b)])
        = (Outline.group b os).tokens := by
      rw [Outline.tokens, ← htokens]
      simp [tokensOf, Segment.token?]
    have hform : (Outline.group b os).form
        = .ok (Form.group (placeAfter (charsOf ps)) b members.reverse).unplaced := by
      rw [Outline.form, hforms, Form.unplaced]
      rfl
    have hadd := h.add hvisible hgroup hform
    simpa using hadd

/-- The open brackets are those of the open groups. -/
theorem nesting (h : Standing ps fs groups) :
  Springboard.nesting [] (visibleOf ps) = some (groups.map OpenGroup.bracket)
  := by
  induction h with
  | outside h => exact h.wellBracketed.nesting []
  | inside h b hqs ih =>
    rw [visibleOf_append, visibleOf_opening, nesting_append, ih, Option.bind_some, nesting_cons,
      nestingStep_opener, Option.bind_some, hqs.wellBracketed.nesting]
    rfl

/-- Nothing is misplaced among complete outlines and open groups. -/
theorem hasNoMisplaced (h : Standing ps fs groups) : HasNoMisplaced (charsOf ps) := by
  obtain ⟨hvisible, -, hmark⟩ := uncommented_charsOf ps
  apply hasNoMisplaced_of_nesting
  · rw [hvisible, h.nesting]
  · rwa [hvisible]

/-- The bracket that cannot close the innermost group is misplaced. -/
theorem isMisplaced (h : Standing ps fs groups) {b : Bracket}
    (hb : ∀ g outer, groups = g :: outer → g.bracket ≠ b) :
  WellBracketed (visibleOf ps)
    ∨ ∃ outer b' inner, visibleOf ps = outer ++ b'.opener :: inner ∧ WellBracketed inner ∧ b' ≠ b
  := by
  cases h with
  | outside h => exact .inl h.wellBracketed
  | @inside ps qs _ _ _ h b' hqs =>
    right
    refine ⟨visibleOf ps, b', visibleOf qs, ?_, hqs.wellBracketed, hb _ _ rfl⟩
    rw [visibleOf_append, visibleOf_opening]

end Standing

/-! ### Running into the error -/

namespace Composer

/-- After a failure nothing changes. -/
theorem foldl_step_of_failed {s : Composer} (h : s.failed.isSome) (events : List Event) :
  events.foldl step s = s
  := by
  induction events with
  | nil => rfl
  | cons event events ih =>
    have hstep : s.step event = s := by
      rw [step.eq_def, if_pos h]
    rw [List.foldl_cons, hstep, ih]

/-- A bracket that cannot close the innermost group is complained about. -/
theorem exists_step_closing (fs : List Form) {groups : List OpenGroup} {b : Bracket}
    (hb : ∀ g outer, groups = g :: outer → g.bracket ≠ b) (place : Position) :
  ∃ reason, (going fs groups).step (.closing place b)
    = ⟨fs, groups, some (.unreadable reason (some place))⟩
  := by
  cases groups with
  | nil => exact ⟨.unexpectedClose b, rfl⟩
  | cons g outer =>
    use .closedBy g.bracket b
    have hne := hb g outer rfl
    simp [step, close, going, fail, hne]

/-- The state behind segments that consist of complete outlines and open groups. -/
def Accepts (s : Composer) (ps : List Segment) : Prop :=
  ∃ fs groups, Standing ps fs groups ∧ s = going fs groups

/-- The state behind segments of which one is a bracket that cannot close the innermost group. -/
def Rejects (s : Composer) (ps : List Segment) : Prop :=
  ∃ qs b rs fs groups reason, ps = qs ++ .token (.closing b) :: rs ∧ Standing qs fs groups
    ∧ (∀ g outer, groups = g :: outer → g.bracket ≠ b)
    ∧ s = ⟨fs, groups, some (.unreadable reason (some (placeAfter (charsOf qs))))⟩

/-- A rejected segment remains rejected. -/
theorem Rejects.concat {s : Composer} {ps : List Segment} (h : s.Rejects ps) (p : Segment)
    (events : List Event) :
  (events.foldl step s).Rejects (ps ++ [p])
  := by
  obtain ⟨qs, b, rs, fs, groups, reason, rfl, hstanding, hb, rfl⟩ := h
  rw [foldl_step_of_failed rfl]
  refine ⟨qs, b, rs ++ [p], fs, groups, reason, ?_, hstanding, hb, rfl⟩
  rw [List.append_assoc, List.cons_append]

/-- A further segment is accepted or rejected. -/
theorem Accepts.concat {s : Composer} {ps : List Segment} (h : s.Accepts ps) (p : Segment)
    (hp : ∀ place word, p = .token (.atom word) → ∃ f, Form.ofAtom place word.chars = .ok f) :
  ((p.events (charsOf ps)).foldl step s).Accepts (ps ++ [p])
    ∨ ((p.events (charsOf ps)).foldl step s).Rejects (ps ++ [p])
  := by
  obtain ⟨fs, groups, hstanding, rfl⟩ := h
  cases p with
  | blank c hc =>
    left
    refine ⟨fs, groups, hstanding.skip rfl, ?_⟩
    rw [Segment.events]
    split
    · rw [List.foldl_cons, step_newline,
      List.foldl_nil]
    · rfl
  | comment text htext =>
    left
    refine ⟨fs, groups, hstanding.skip rfl, ?_⟩
    rw [Segment.events, List.foldl_cons, step_comment, List.foldl_cons, step_newline,
      List.foldl_nil]
  | token t =>
    cases t with
    | opening b => exact .inl ⟨fs, _, .inside hstanding b .nil, rfl⟩
    | closing b =>
      by_cases hb : ∀ g outer, groups = g :: outer → g.bracket ≠ b
      · right
        obtain ⟨reason, hstep⟩ := exists_step_closing fs hb (placeAfter (charsOf ps))
        exact ⟨ps, b, [], fs, groups, reason, rfl, hstanding, hb, hstep⟩
      · left
        simp only [not_forall, not_not] at hb
        obtain ⟨⟨place, b, members⟩, outer, rfl, rfl⟩ := hb
        obtain ⟨fs', groups', hadd, hstanding'⟩ := hstanding.close
        refine ⟨fs', groups', hstanding', ?_⟩
        rw [← hadd]
        apply step_closing
    | atom word =>
      left
      obtain ⟨f, hf⟩ := hp (placeAfter (charsOf ps)) word rfl
      have hword := @Segment.wellBracketed_visible (.token (.atom word))
        (fun b => ⟨by simp, by simp⟩)
      have hform : (Outline.atom word).form = .ok f.unplaced := by
        rw [Outline.form]
        apply Form.ofAtom_start hf
      obtain ⟨fs', groups', hadd, hstanding'⟩ :=
        @Standing.add _ _ _ hstanding [.token (.atom word)] (by simpa [visibleOf] using hword) _
          rfl _ hform
      refine ⟨fs', groups', hstanding', ?_⟩
      rw [← hadd]
      simp [Segment.events, Token.event, step, going, hf]

/-- Segments whose words have forms are accepted or rejected. -/
theorem accepts_or_rejects {ps : List Segment}
    (hatoms : ∀ place word, .token (.atom word) ∈ ps → ∃ f, Form.ofAtom place word.chars = .ok f) :
  ((eventsOf [] ps).foldl step start).Accepts ps ∨ ((eventsOf [] ps).foldl step start).Rejects ps
  := by
  induction ps using List.reverseRecOn with
  | nil => exact .inl ⟨[], [], .outside .nil, rfl⟩
  | append_singleton ps p ih =>
    have hevents : eventsOf [] (ps ++ [p]) = eventsOf [] ps ++ p.events (charsOf ps) := by
      simp [eventsOf_append, eventsOf]
    rw [hevents, List.foldl_append]
    obtain h | h := ih fun place word hmem => hatoms place word (List.mem_append_left [p] hmem)
    · apply h.concat
      rintro place word rfl
      exact hatoms place word (List.mem_append_right ps List.mem_cons_self)
    · exact .inr (h.concat p _)

end Composer

/-! ### Complete forms -/

/-- All forms that are complete in some characters: these are complete outlines of the forms, and
nothing else or a bracket that is never closed. -/
def CompleteForms (cs : List Char) (fs : List Form) : Prop :=
  ∃ ps os rest, Separated ps ∧ tokensOf ps = Outline.tokensAll os
    ∧ Outline.forms os = .ok (Form.unplacedAll fs) ∧ cs = charsOf ps ++ rest
    ∧ (rest = [] ∨ ∃ b : Bracket, ∃ pending, rest = b.opener :: pending
      ∧ ∀ inner after, uncommented false pending = inner ++ b.closer :: after →
        ¬ WellBracketed inner)

/-- The outermost group that is open divides the complete outlines from the others; behind its
bracket no bracket is closed that is not open. -/
theorem Standing.exists_outermost {ps : List Segment} {fs : List Form} {groups : List OpenGroup}
    (h : Standing ps fs groups) :
  ∃ qs rs, ps = qs ++ rs ∧ Complete qs fs
    ∧ (rs = [] ∧ groups = []
      ∨ ∃ b rs' opened, rs = .token (.opening b) :: rs'
        ∧ Springboard.nesting [] (visibleOf rs') = some opened)
  := by
  induction h with
  | outside h => exact ⟨_, [], (List.append_nil _).symm, h, .inl ⟨rfl, rfl⟩⟩
  | @inside ps qs' fs members groups h b hqs ih =>
    obtain ⟨qs, rs, rfl, hcomplete, ⟨rfl, -⟩ | ⟨b', rs', opened, rfl, hopened⟩⟩ := ih
    · refine ⟨qs, .token (.opening b) :: qs', ?_, hcomplete, .inr ⟨b, qs', [], rfl, ?_⟩⟩
      · rw [List.append_nil]
      · exact hqs.wellBracketed.nesting []
    · refine ⟨qs, .token (.opening b') :: rs' ++ .token (.opening b) :: qs', ?_, hcomplete,
        .inr ⟨b', rs' ++ .token (.opening b) :: qs', b :: opened, rfl, ?_⟩⟩
      · rw [List.append_assoc]
      · rw [visibleOf_append, visibleOf_opening, nesting_append, hopened, Option.bind_some,
          nesting_cons, nestingStep_opener, Option.bind_some, hqs.wellBracketed.nesting]

/-- Behind complete outlines and open groups, the forms that are complete are those of the
outlines. -/
theorem Standing.completeForms {ps : List Segment} {fs : List Form} {groups : List OpenGroup}
    (h : Standing ps fs groups) (hseparated : Separated ps) (tail : List Char)
    (htail : uncommented false tail = []) (hgroups : groups = [] → tail = []) :
  CompleteForms (charsOf ps ++ tail) fs.reverse
  := by
  obtain ⟨qs, rs, rfl, hcomplete, hrs⟩ := h.exists_outermost
  obtain ⟨os, htokens, hforms⟩ := hcomplete.exists_outlines
  have hseparated : Separated qs := (List.isChain_append.mp hseparated).1
  refine ⟨qs, os, charsOf rs ++ tail, hseparated, htokens, hforms, ?_, ?_⟩
  · rw [charsOf_append, List.append_assoc]
  obtain ⟨rfl, hnone⟩ | ⟨b, rs', opened, rfl, hopened⟩ := hrs
  · left
    rw [hgroups hnone]
    rfl
  · right
    refine ⟨b, charsOf rs' ++ tail, rfl, ?_⟩
    intro inner after hinner hwell
    rw [uncommented_charsOf_append, htail, List.append_nil] at hinner
    rw [hinner, nesting_of_misplaced (.inl hwell)] at hopened
    contradiction

/-! ### Reading fails exactly -/

/-- The word of a segment is the atom of an event. -/
theorem exists_mem_eventsOf {ps : List Segment} {word : Word} (h : .token (.atom word) ∈ ps)
    (before : List Char) :
  ∃ place, .atom place word.chars ∈ eventsOf before ps
  := by
  induction ps generalizing before with
  | nil => contradiction
  | cons p ps ih =>
    rw [eventsOf]
    obtain rfl | h := List.mem_cons.mp h
    · exact ⟨placeAfter before, List.mem_append_left _ List.mem_cons_self⟩
    · obtain ⟨place, hmem⟩ := ih h (before ++ p.chars)
      exact ⟨place, List.mem_append_right _ hmem⟩

/-- The state in which the segments of a text have been put together. -/
def composed (ps : List Segment) : Composer :=
  (eventsOf [] ps).foldl Composer.step .start

/-- What is read of a text without a quotation mark behind its segments. -/
theorem ofText_of_lastComment {text : String} {ps : List Segment} (hseparated : Separated ps)
    {tail : List Char} (htail : IsLastComment tail) (htext : text.toList = charsOf ps ++ tail) :
  Form.ofText text = ⟨(composed ps).forms.reverse, (composed ps).error? none⟩
  := by
  have hlast : Tells (lastEvents (charsOf ps) tail) [] := by
    rw [lastEvents]
    split
    · exact .nil
    · exact .comment _ _ .nil
  rw [Form.ofText, scan_eq_of_segments hseparated htail htext, List.foldl_append,
    Composer.foldl_step_of_tells_nil hlast]
  rfl

/-- What is read of a text with a quotation mark behind its segments. -/
theorem ofText_of_stringMark {text : String} {ps : List Segment} (hseparated : Separated ps)
    {rest : List Char} (htext : text.toList = charsOf ps ++ stringMark :: rest) :
  Form.ofText text = ⟨(composed ps).forms.reverse, (composed ps).error?
    (some (.unreadable .stringLiteral (some (placeAfter (charsOf ps)))))⟩
  := by
  rw [Form.ofText, scan_eq_of_stringMark hseparated htext]
  rfl

/-- The character behind `before` is to blame for what is wrong with a text: it is the first
misplaced one, or there is none, and it is the innermost bracket that is left open. All forms that
are complete by then have been read. -/
def IsToBlame (text : String) (before : List Char) : Prop :=
  FirstMisplaced text.toList before ∧ CompleteForms before (Form.ofText text).items
    ∨ HasNoMisplaced text.toList ∧ LastOpen text.toList before
      ∧ CompleteForms text.toList (Form.ofText text).items

/-- A text with a misplaced bracket is blamed for it. -/
theorem isToBlame_of_rejects {text : String} {ps : List Segment} (hseparated : Separated ps)
    {tail : List Char} (htext : text.toList = charsOf ps ++ tail) {ending : Option Error}
    (hread : Form.ofText text = ⟨(composed ps).forms.reverse, (composed ps).error? ending⟩)
    (h : (composed ps).Rejects ps) :
  ∃ reason before, (Form.ofText text).ending = some (.unreadable reason (some (placeAfter before)))
    ∧ IsToBlame text before ∧ ¬ WellBracketed (uncommented false text.toList)
  := by
  obtain ⟨qs, b, rs, fs, groups, reason, rfl, hstanding, hb, hstate⟩ := h
  obtain ⟨hvisible, hafter, -⟩ := uncommented_charsOf qs
  have hmisplaced := hstanding.isMisplaced hb
  have hsplit : text.toList = charsOf qs ++ b.closer :: (charsOf rs ++ tail) := by
    rw [htext, charsOf_append, List.append_assoc]
    rfl
  have hcloser : b.closer ≠ ';' := by
    cases b <;> decide
  refine ⟨reason, charsOf qs, ?_,
    .inl ⟨⟨hstanding.hasNoMisplaced, hafter, b.closer, _, hsplit, ?_⟩, ?_⟩, ?_⟩
  · rw [hread, hstate]
    rfl
  · rw [hvisible]
    exact .inr ⟨b, rfl, hmisplaced⟩
  · have hcomplete := hstanding.completeForms (List.isChain_append.mp hseparated).1 [] rfl
      (fun _ => rfl)
    rw [hread, hstate]
    simpa using hcomplete
  · intro hwell
    have hnesting := hwell.nesting []
    rw [hsplit, uncommented_charsOf_append, uncommented_cons hcloser,
      nesting_of_misplaced hmisplaced] at hnesting
    contradiction

/-- A text with a quotation mark behind complete outlines and open groups is blamed for it. -/
theorem isToBlame_of_stringMark {text : String} {ps : List Segment} (hseparated : Separated ps)
    {rest : List Char} (htext : text.toList = charsOf ps ++ stringMark :: rest)
    (h : (composed ps).Accepts ps) :
  ∃ reason before, (Form.ofText text).ending = some (.unreadable reason (some (placeAfter before)))
    ∧ IsToBlame text before ∧ stringMark ∈ uncommented false text.toList
  := by
  obtain ⟨fs, groups, hstanding, hstate⟩ := h
  obtain ⟨-, hafter, -⟩ := uncommented_charsOf ps
  have hread := ofText_of_stringMark hseparated htext
  rw [hstate] at hread
  refine ⟨.stringLiteral, charsOf ps, ?_,
    .inl ⟨⟨hstanding.hasNoMisplaced, hafter, stringMark, rest, htext, .inl rfl⟩, ?_⟩, ?_⟩
  · rw [hread]
    rfl
  · have hcomplete := hstanding.completeForms hseparated [] rfl (fun _ => rfl)
    rw [List.append_nil] at hcomplete
    rw [hread]
    exact hcomplete
  · have hmark : stringMark ≠ ';' := by
      decide
    rw [htext, uncommented_charsOf_append, uncommented_cons hmark]
    simp

/-- A text that ends with open groups is blamed for the innermost. -/
theorem isToBlame_of_open {text : String} {ps : List Segment} (hseparated : Separated ps)
    {tail : List Char} (htail : IsLastComment tail) (htext : text.toList = charsOf ps ++ tail)
    {fs : List Form} {g : OpenGroup} {groups : List OpenGroup} (h : Standing ps fs (g :: groups))
    (hstate : composed ps = .going fs (g :: groups)) :
  ∃ reason before, (Form.ofText text).ending = some (.unreadable reason (some (placeAfter before)))
    ∧ IsToBlame text before ∧ ¬ WellBracketed (uncommented false text.toList)
  := by
  have hread := ofText_of_lastComment hseparated htail htext
  have hnesting := h.nesting
  have hcomplete := h.completeForms hseparated tail (uncommented_lastComment htail)
    (fun hnil => by contradiction)
  have hvisible : uncommented false text.toList = visibleOf ps := by
    rw [htext, uncommented_charsOf_append, uncommented_lastComment htail, List.append_nil]
  obtain ⟨-, -, hmark⟩ := uncommented_charsOf ps
  rw [hstate] at hread
  cases h with
  | @inside ps qs _ _ _ h b hqs =>
    obtain ⟨-, hafter, -⟩ := uncommented_charsOf ps
    refine ⟨.unterminated, charsOf ps, ?_,
      .inr ⟨?_, ⟨hafter, b, charsOf qs ++ tail, ?_, ?_⟩, ?_⟩, ?_⟩
    · rw [hread]
      rfl
    · apply hasNoMisplaced_of_nesting
      · rw [hvisible, hnesting]
      · rwa [hvisible]
    · rw [htext, charsOf_append, charsOf_opening, List.append_assoc, List.cons_append]
    · rw [uncommented_charsOf_append, uncommented_lastComment htail, List.append_nil]
      exact hqs.wellBracketed
    · rw [hread, htext]
      exact hcomplete
    · intro hwell
      rw [hvisible] at hwell
      rw [hwell.nesting] at hnesting
      cases hnesting

/-- A text is read without an error if it is in order, and is blamed otherwise. -/
theorem ofText_cases {text : String} (hshort : HasShortDecimals text) :
  ((Form.ofText text).ending = none ∧ stringMark ∉ uncommented false text.toList
      ∧ WellBracketed (uncommented false text.toList))
    ∨ ∃ reason before,
      (Form.ofText text).ending = some (.unreadable reason (some (placeAfter before)))
        ∧ IsToBlame text before
        ∧ (stringMark ∈ uncommented false text.toList
          ∨ ¬ WellBracketed (uncommented false text.toList))
  := by
  obtain ⟨ps, tail, hseparated, htext, htail⟩ := isLaidOut text.toList
  have hevents : ∀ event ∈ eventsOf [] ps, event ∈ (Scan.ofText text).events := by
    intro event hevent
    obtain htail | ⟨rest, rfl⟩ := htail
    · rw [scan_eq_of_segments hseparated htail htext]
      exact List.mem_append_left _ hevent
    · rw [scan_eq_of_stringMark hseparated htext]
      exact hevent
  have hatoms : ∀ place word, .token (.atom word) ∈ ps →
      ∃ f, Form.ofAtom place word.chars = .ok f := by
    intro place word hword
    obtain ⟨place', hmem⟩ := exists_mem_eventsOf hword []
    exact exists_ofAtom place fun digits hdigits =>
      hshort place' word.chars digits (hevents _ hmem) hdigits
  obtain haccepts | hrejects := Composer.accepts_or_rejects hatoms
  · obtain htail | ⟨rest, rfl⟩ := htail
    · obtain ⟨fs, groups, hstanding, hstate⟩ := haccepts
      cases groups with
      | nil =>
        left
        cases hstanding with
        | outside hcomplete =>
          obtain ⟨-, -, hmark⟩ := uncommented_charsOf ps
          have hvisible : uncommented false text.toList = visibleOf ps := by
            rw [htext, uncommented_charsOf_append, uncommented_lastComment htail, List.append_nil]
          rw [hvisible, ofText_of_lastComment hseparated htail htext, composed, hstate]
          exact ⟨rfl, hmark, hcomplete.wellBracketed⟩
      | cons g groups =>
        right
        obtain ⟨reason, before, hending, hblame, hwell⟩ :=
          isToBlame_of_open hseparated htail htext hstanding hstate
        exact ⟨reason, before, hending, hblame, .inr hwell⟩
    · right
      obtain ⟨reason, before, hending, hblame, hmark⟩ :=
        isToBlame_of_stringMark hseparated htext haccepts
      exact ⟨reason, before, hending, hblame, .inl hmark⟩
  · right
    have hread : ∃ ending,
        Form.ofText text = ⟨(composed ps).forms.reverse, (composed ps).error? ending⟩ := by
      obtain htail | ⟨rest, rfl⟩ := htail
      · exact ⟨_, ofText_of_lastComment hseparated htail htext⟩
      · exact ⟨_, ofText_of_stringMark hseparated htext⟩
    obtain ⟨ending, hread⟩ := hread
    obtain ⟨reason, before, hending, hblame, hwell⟩ :=
      isToBlame_of_rejects hseparated htext hread hrejects
    exact ⟨reason, before, hending, hblame, .inr hwell⟩

/-- **Exactly the balanced texts are read, and the right place is blamed.** If the decimal integers
of a text are short, it is unreadable just when, outside of comments, it holds a quotation mark or
is not well bracketed. An error is always of that kind. Its place is that of the first misplaced
character, or if there is none, that of the innermost bracket that is left open; and all forms that
are complete by then have been read. -/
theorem ofText_fails_exactly (text : String) (hshort : HasShortDecimals text) :
  ((∃ reason place, (Form.ofText text).ending = some (.unreadable reason place))
      ↔ stringMark ∈ uncommented false text.toList
        ∨ ¬ WellBracketed (uncommented false text.toList))
    ∧ ∀ e, (Form.ofText text).ending = some e →
      ∃ reason before, e = .unreadable reason (some (placeAfter before)) ∧ IsToBlame text before
  := by
  obtain ⟨hending, hmark, hwell⟩ | ⟨reason, before, hending, hblame, hwrong⟩ := ofText_cases hshort
  · rw [hending]
    constructor
    · apply iff_of_false
      · rintro ⟨reason, place, h⟩
        contradiction
      · rintro (h | h)
        · exact hmark h
        · exact h hwell
    · intro e he
      contradiction
  · rw [hending]
    constructor
    · exact iff_of_true ⟨reason, _, rfl⟩ hwrong
    · intro e he
      cases he
      exact ⟨reason, before, rfl, hblame⟩

/-- The bracket that a comment hides closes nothing, so the first misplaced character of this text
is the round bracket in its second line. -/
theorem ofText_fails_exactly_crossed :
  HasShortDecimals "x (f ; )\n [7)\""
    ∧ (stringMark ∈ uncommented false "x (f ; )\n [7)\"".toList
      ∨ ¬ WellBracketed (uncommented false "x (f ; )\n [7)\"".toList))
    ∧ ∃ before, placeAfter before = ⟨2, 3⟩ ∧ IsToBlame "x (f ; )\n [7)\"" before
  := by
  have hshort : HasShortDecimals "x (f ; )\n [7)\"" := by
    have hevents : (Scan.ofText "x (f ; )\n [7)\"").events =
        [.atom ⟨1, 0⟩ ['x'], .opening ⟨1, 2⟩ .round, .atom ⟨1, 3⟩ ['f'],
          .comment ⟨1, 5⟩ [';', ' ', ')'], .newline ⟨1, 8⟩, .opening ⟨2, 1⟩ .square,
          .atom ⟨2, 2⟩ ['7'], .closing ⟨2, 3⟩ .round] := by
      rfl
    intro place token digits hevent
    rw [hevents] at hevent
    simp at hevent
    obtain ⟨-, rfl⟩ | ⟨-, rfl⟩ | ⟨-, rfl⟩ := hevent
    · exact smallWord_isShort 'x' rfl digits
    · exact smallWord_isShort 'f' rfl digits
    · exact smallWord_isShort '7' rfl digits
  have hending : (Form.ofText "x (f ; )\n [7)\"").ending =
      some (.unreadable (.closedBy .square .round) (some ⟨2, 3⟩)) := by
    rfl
  obtain ⟨hiff, hblame⟩ := ofText_fails_exactly "x (f ; )\n [7)\"" hshort
  obtain ⟨reason, before, heq, hbefore⟩ := hblame _ hending
  refine ⟨hshort, hiff.mp ⟨_, _, hending⟩, before, ?_, hbefore⟩
  injection heq with hreason hplace
  injection hplace with hplace
  exact hplace.symm

end Springboard
