import Mathlib.Data.List.Chain
import Mathlib.Data.List.TakeWhile
import Springboard.Source.Event

/-!
# Laying out tokens

A text is laid out from segments: blank characters, comments with the line end behind them, and
tokens. Two atoms never touch, for they would be read as one. Scanning a text that is laid out gives
the events of its segments, each with its place. Every text is laid out in this way, up to a
quotation mark or to a comment that no line end follows.
-/

namespace Springboard

/-! ### Places -/

/-- The place of what follows some characters: each line end among them leads to a new line, and
each character behind the last line end to a new column. -/
def placeAfter (before : List Char) : Position where
  line := 1 + before.count '\n'
  column := (before.reverse.takeWhile (· != '\n')).length

/-- A line end leads to the start of the next line. -/
theorem placeAfter_newline (before : List Char) :
  placeAfter (before ++ ['\n']) = (placeAfter before).nextLine
  := by
  simp [placeAfter, Position.nextLine, Nat.add_assoc]

/-- Characters without a line end lead further on in the same line. -/
theorem placeAfter_append (before : List Char) {cs : List Char} (h : '\n' ∉ cs) :
  placeAfter (before ++ cs) = (placeAfter before).advance cs.length
  := by
  have hall : ∀ c ∈ cs.reverse, (c != '\n') = true := by
    intro c hc
    rw [bne_iff_ne]
    rintro rfl
    exact h (List.mem_reverse.mp hc)
  simp [placeAfter, Position.advance, List.count_eq_zero_of_not_mem h,
    List.takeWhile_append_of_pos hall, Nat.add_comm]

/-! ### Segments -/

/-- A row of characters that is read as one atom. -/
structure Word where
  chars : List Char
  ne_nil : chars ≠ []
  isAtomChar_of_mem : ∀ c ∈ chars, isAtomChar c

/-- The parts of a text that have a meaning. -/
inductive Token
  | opening (bracket : Bracket)
  | closing (bracket : Bracket)
  | atom (word : Word)

/-- The characters of a token. -/
def Token.chars : Token → List Char
  | opening bracket => [bracket.opener]
  | closing bracket => [bracket.closer]
  | atom word => word.chars

/-- The event of a token at a place. -/
def Token.event (place : Position) : Token → Event
  | opening bracket => .opening place bracket
  | closing bracket => .closing place bracket
  | atom word => .atom place word.chars

/-- A token, or something that stands between tokens. -/
inductive Segment
  | blank (c : Char) (h : Text.isBlank c)
  | comment (text : List Char) (h : '\n' ∉ text)
  | token (t : Token)

namespace Segment

/-- The characters of a segment; those of a comment include its line end. -/
def chars : Segment → List Char
  | blank c _ => [c]
  | comment text _ => ';' :: text ++ ['\n']
  | token t => t.chars

/-- The token that a segment is. -/
def token? : Segment → Option Token
  | token t => some t
  | _ => none

/-- Whether a segment is an atom. -/
def isAtom : Segment → Bool
  | token (.atom _) => true
  | _ => false

/-- The events of a segment that follows some characters. -/
def events (before : List Char) : Segment → List Event
  | blank c _ => if c = '\n' then [.newline (placeAfter before)] else []
  | comment text _ =>
    [.comment (placeAfter before) (';' :: text), .newline (placeAfter (before ++ ';' :: text))]
  | token t => [t.event (placeAfter before)]

/-- A segment has a first character, which is one of an atom just when the segment is. -/
theorem exists_chars_eq_cons (p : Segment) :
  ∃ c cs, p.chars = c :: cs ∧ isAtomChar c = p.isAtom
  := by
  match p with
  | blank c hc => exact ⟨c, [], rfl, by simp [isAtomChar, hc, isAtom]⟩
  | comment text _ => exact ⟨';', text ++ ['\n'], rfl, rfl⟩
  | token (.opening .round) | token (.opening .square) | token (.closing .round)
  | token (.closing .square) => exact ⟨_, [], rfl, rfl⟩
  | token (.atom ⟨[], hne, _⟩) => contradiction
  | token (.atom ⟨c :: cs, _, hatom⟩) => exact ⟨c, cs, rfl, hatom c List.mem_cons_self⟩

end Segment

/-- The characters of some segments, one behind the other. -/
def charsOf (ps : List Segment) : List Char :=
  ps.flatMap Segment.chars

/-- The tokens among some segments. -/
def tokensOf (ps : List Segment) : List Token :=
  ps.filterMap Segment.token?

/-- The events of some segments that follow some characters. -/
def eventsOf : List Char → List Segment → List Event
  | _, [] => []
  | before, p :: ps => p.events before ++ eventsOf (before ++ p.chars) ps

/-- No two atoms touch. -/
def Separated (ps : List Segment) : Prop :=
  ps.IsChain fun p q => p.isAtom → q.isAtom = false

@[simp]
theorem charsOf_append (ps qs : List Segment) :
  charsOf (ps ++ qs) = charsOf ps ++ charsOf qs
  := List.flatMap_append

@[simp]
theorem tokensOf_append (ps qs : List Segment) :
  tokensOf (ps ++ qs) = tokensOf ps ++ tokensOf qs
  := List.filterMap_append

theorem eventsOf_append (before : List Char) (ps qs : List Segment) :
  eventsOf before (ps ++ qs) = eventsOf before ps ++ eventsOf (before ++ charsOf ps) qs
  := by
  induction ps generalizing before with
  | nil => simp [eventsOf, charsOf]
  | cons p ps ih => simp [eventsOf, charsOf, ih, List.append_assoc]

/-! ### Scanning -/

namespace Scanner

/-- The scanner has gone through some characters and met some events, the last of which may be
unfinished. -/
structure Passed (s : Scanner) (before : List Char) (events : List Event) : Prop where
  events : s.unfinished.finish s.events = events.reverse
  position : s.position = placeAfter before
  stopped : s.stopped = none

/-- At the start nothing has been gone through. -/
theorem passed_start : start.Passed [] [] where
  events := rfl
  position := rfl
  stopped := rfl

/-- The state of a scanner without an unfinished token. -/
def between (before : List Char) (events : List Event) : Scanner :=
  ⟨events.reverse, .none, placeAfter before, none⟩

/-- A scanner without an unfinished token has gone through what its state says. -/
theorem passed_between (before : List Char) (events : List Event) :
  (between before events).Passed before events
  := ⟨rfl, rfl, rfl⟩

/-- What does not go on with an unfinished token is scanned as if there were none. -/
theorem Passed.foldl_step {s : Scanner} {before : List Char} {events : List Event}
    (h : s.Passed before events) {c : Char} (hc : s.unfinished.takes c = false) (cs : List Char) :
  (c :: cs).foldl step s = (c :: cs).foldl step (between before events)
  := by
  have hbegin : s.begin c = (between before events).begin c := by
    unfold begin
    rw [h.events, h.position]
    rfl
  have hidle : (between before events).step c = (between before events).begin c := rfl
  have hstep : s.step c = s.begin c := by
    simp [step, h.stopped, hc]
  rw [List.foldl_cons, List.foldl_cons, hstep, hbegin, hidle]

/-- A token that has begun takes all the characters it can have. -/
theorem foldl_step_of_takes
    (unfinished : List Char → Unfinished) (takes : Char → Bool)
    (hpush : ∀ c cs, (unfinished cs).push c = unfinished (c :: cs))
    (htakes : ∀ c cs, (unfinished cs).takes c = takes c)
    {cs : List Char} (h : ∀ c ∈ cs, takes c) (events : List Event) (taken : List Char)
    (position : Position) :
  cs.foldl step ⟨events, unfinished taken, position, none⟩
    = ⟨events, unfinished (cs.reverse ++ taken), position.advance cs.length, none⟩
  := by
  induction cs generalizing taken position with
  | nil => rfl
  | cons c cs ih =>
    obtain ⟨hc, hcs⟩ := List.forall_mem_cons.mp h
    have hstep : step ⟨events, unfinished taken, position, none⟩ c
        = ⟨events, unfinished (c :: taken), position.advance 1, none⟩ := by
      simp [step, htakes, hc, hpush]
    rw [List.foldl_cons, hstep, ih hcs]
    simp [Position.advance, Nat.add_comm, Nat.add_left_comm]

/-- A comment goes on up to the next line end. -/
theorem foldl_step_comment {text : List Char} (h : '\n' ∉ text) (events : List Event)
    (taken : List Char) (place position : Position) :
  text.foldl step ⟨events, .comment place taken, position, none⟩
    = ⟨events, .comment place (text.reverse ++ taken), position.advance text.length, none⟩
  := by
  apply foldl_step_of_takes (.comment place) (· != '\n') (fun _ _ => rfl) (fun _ _ => rfl)
  intro c hc
  apply bne_iff_ne.mpr
  rintro rfl
  exact h hc

/-- An atom goes on as long as its characters do. -/
theorem foldl_step_atom {text : List Char} (h : ∀ c ∈ text, isAtomChar c) (events : List Event)
    (taken : List Char) (place position : Position) :
  text.foldl step ⟨events, .atom place taken, position, none⟩
    = ⟨events, .atom place (text.reverse ++ taken), position.advance text.length, none⟩
  := by
  apply foldl_step_of_takes (.atom place) isAtomChar (fun _ _ => rfl) (fun _ _ => rfl) h

end Scanner

/-- A character of an atom is not blank, and is no delimiter. -/
theorem of_isAtomChar {c : Char} (h : isAtomChar c) :
  Text.isBlank c = false ∧ c ≠ '(' ∧ c ≠ ')' ∧ c ≠ '[' ∧ c ≠ ']' ∧ c ≠ ';' ∧ c ≠ stringMark
  := by
  simpa [isAtomChar, isDelimiter, and_assoc] using h

/-- A character that is not blank is no line end. -/
theorem ne_newline_of_isBlank {c : Char} (h : Text.isBlank c = false) : c ≠ '\n' := by
  rintro rfl
  contradiction

namespace Scanner

variable (before : List Char) (events : List Event)

/-- A blank character may end a line, and else is passed over. -/
theorem foldl_step_blank {c : Char} (hc : Text.isBlank c) :
  [c].foldl step (between before events)
    = between (before ++ [c]) (events ++ (Segment.blank c hc).events before)
  := by
  by_cases hnewline : c = '\n'
  · subst hnewline
    simp [between, placeAfter_newline, step, begin, Unfinished.takes, Unfinished.finish,
      Segment.events]
  · have hplace := @placeAfter_append before [c] (by simpa using Ne.symm hnewline)
    simp [between, hplace, step, begin, Unfinished.takes, Unfinished.finish, Segment.events,
      hnewline, hc]

/-- A bracket is a token by itself. -/
theorem foldl_step_bracket (t : Token) (ht : (Segment.token t).isAtom = false) :
  t.chars.foldl step (between before events)
    = between (before ++ t.chars) (events ++ [t.event (placeAfter before)])
  := by
  unfold between
  match t with
  | .opening .round | .opening .square | .closing .round | .closing .square =>
    rw [placeAfter_append before (by decide)]
    simp [Token.chars, Token.event, Bracket.opener, Bracket.closer, step, begin, Unfinished.takes,
      Unfinished.finish, show Text.isBlank '(' = false from rfl,
      show Text.isBlank '[' = false from rfl, show Text.isBlank ')' = false from rfl,
      show Text.isBlank ']' = false from rfl]
  | .atom word => contradiction

/-- The start of a comment is followed by a comment. -/
theorem foldl_step_semicolon {text : List Char} (h : '\n' ∉ text) :
  (';' :: text).foldl step (between before events)
    = ⟨events.reverse, .comment (placeAfter before) (';' :: text).reverse,
        placeAfter (before ++ ';' :: text), none⟩
  := by
  have hstep : (between before events).step ';'
      = ⟨events.reverse, .comment (placeAfter before) [';'], (placeAfter before).advance 1,
          none⟩ := by
    simp [between, step, begin, Unfinished.takes, Unfinished.finish,
      show Text.isBlank ';' = false from rfl]
  rw [List.foldl_cons, hstep, foldl_step_comment h, placeAfter_append before (by simpa using h)]
  simp [Position.advance, Nat.add_assoc, Nat.add_comm]

/-- A word is followed by an atom. -/
theorem foldl_step_word (word : Word) :
  word.chars.foldl step (between before events)
    = ⟨events.reverse, .atom (placeAfter before) word.chars.reverse,
        placeAfter (before ++ word.chars), none⟩
  := by
  obtain ⟨chars, hne, hatom⟩ := word
  cases chars with
  | nil => contradiction
  | cons c cs =>
    obtain ⟨hc, hcs⟩ := List.forall_mem_cons.mp hatom
    obtain ⟨hblank, hopen, hclose, hopen', hclose', hcomment, hmark⟩ := of_isAtomChar hc
    have hstep : (between before events).step c
        = ⟨events.reverse, .atom (placeAfter before) [c], (placeAfter before).advance 1, none⟩ := by
      simp [between, step, begin, Unfinished.takes, Unfinished.finish, ne_newline_of_isBlank hblank,
        hblank, hopen, hclose, hopen', hclose', hcomment, hmark]
    have hline : '\n' ∉ c :: cs := by
      intro hmem
      exact ne_newline_of_isBlank (of_isAtomChar (hatom _ hmem)).1 rfl
    rw [List.foldl_cons, hstep, foldl_step_atom hcs, placeAfter_append before hline]
    simp [Position.advance, Nat.add_assoc, Nat.add_comm]

variable {before events}

/-- Going through a segment meets its events. Only an atom is left unfinished. -/
theorem passed_segment (p : Segment) :
  (p.chars.foldl step (between before events)).Passed (before ++ p.chars)
    (events ++ p.events before)
    ∧ ∀ c, (p.chars.foldl step (between before events)).unfinished.takes c →
      p.isAtom ∧ isAtomChar c
  := by
  cases p with
  | blank c hc =>
    have hfold := foldl_step_blank before events hc
    rw [Segment.chars, hfold]
    exact ⟨passed_between _ _, fun c hc => by contradiction⟩
  | comment text h =>
    have hcomment : Passed ⟨events.reverse, .comment (placeAfter before) (';' :: text).reverse,
        placeAfter (before ++ ';' :: text), none⟩ (before ++ ';' :: text)
        (events ++ [.comment (placeAfter before) (';' :: text)]) := by
      refine ⟨?_, rfl, rfl⟩
      simp [Unfinished.finish]
    have hnewline : Text.isBlank '\n' := rfl
    rw [Segment.chars, List.foldl_append, foldl_step_semicolon before events h,
      hcomment.foldl_step rfl, foldl_step_blank _ _ hnewline]
    constructor
    · have hpassed := passed_between (before ++ ';' :: text ++ ['\n'])
        (events ++ [.comment (placeAfter before) (';' :: text)]
          ++ (Segment.blank '\n' hnewline).events (before ++ ';' :: text))
      simpa [Segment.events] using hpassed
    · intro c hc
      contradiction
  | token t =>
    cases hatom : (Segment.token t).isAtom with
    | false =>
      have hfold := foldl_step_bracket before events t hatom
      rw [Segment.chars, hfold]
      exact ⟨passed_between _ _, fun c hc => by contradiction⟩
    | true =>
      cases t with
      | opening b => contradiction
      | closing b => contradiction
      | atom word =>
        rw [Segment.chars, Token.chars, foldl_step_word]
        refine ⟨⟨?_, rfl, rfl⟩, fun c hc => ⟨rfl, hc⟩⟩
        simp [Unfinished.finish, Segment.events, Token.event]

/-- Going through segments meets their events, if an unfinished atom is not followed by another. -/
theorem Passed.segments {s : Scanner} (h : s.Passed before events) {q : Segment} {ps : List Segment}
    (hseparated : Separated (q :: ps))
    (htakes : ∀ c, s.unfinished.takes c → q.isAtom ∧ isAtomChar c) :
  ((charsOf ps).foldl step s).Passed (before ++ charsOf ps) (events ++ eventsOf before ps)
    ∧ ∀ c, ((charsOf ps).foldl step s).unfinished.takes c → isAtomChar c
  := by
  induction ps generalizing s before events q with
  | nil =>
    refine ⟨by simpa [charsOf, eventsOf] using h, fun c hc => ?_⟩
    exact (htakes c hc).2
  | cons p ps ih =>
    obtain ⟨hfirst, hrest⟩ := List.isChain_cons_cons.mp hseparated
    obtain ⟨c, cs, hchars, hatom⟩ := p.exists_chars_eq_cons
    have hc : s.unfinished.takes c = false := by
      by_contra hc
      obtain ⟨hq, hc⟩ := htakes c (by simpa using hc)
      rw [← hatom, hc] at hfirst
      exact Bool.noConfusion (hfirst hq)
    have hfold : p.chars.foldl step s = p.chars.foldl step (between before events) := by
      rw [hchars, h.foldl_step hc]
    obtain ⟨hpassed, htakes⟩ := @passed_segment before events p
    rw [← hfold] at hpassed htakes
    have hall := ih hpassed hrest htakes
    have hcharsOf : charsOf (p :: ps) = p.chars ++ charsOf ps := rfl
    rw [hcharsOf, List.foldl_append, eventsOf, ← List.append_assoc, ← List.append_assoc]
    exact hall

/-- From the start, going through segments meets their events. -/
theorem passed_segments {ps : List Segment} (hseparated : Separated ps) :
  ((charsOf ps).foldl step start).Passed (charsOf ps) (eventsOf [] ps)
    ∧ ∀ c, isAtomChar c = false → ((charsOf ps).foldl step start).unfinished.takes c = false
  := by
  have hblank : Separated (.blank ' ' rfl :: ps) := by
    apply List.isChain_cons.mpr ⟨?_, hseparated⟩
    intro q _ hatom
    contradiction
  obtain ⟨hpassed, htakes⟩ := passed_start.segments hblank (fun c hc => by contradiction)
  refine ⟨hpassed, fun c hc => ?_⟩
  by_contra htaken
  rw [htakes c (by simpa using htaken)] at hc
  contradiction

/-- A scanner that has stopped stays as it is. -/
theorem foldl_step_of_stopped {s : Scanner} (h : s.stopped.isSome) (cs : List Char) :
  cs.foldl step s = s
  := by
  induction cs with
  | nil => rfl
  | cons c cs ih => rw [List.foldl_cons, step, if_pos h, ih]

end Scanner

/-- Nothing, or a comment that no line end follows. -/
def IsLastComment (cs : List Char) : Prop :=
  cs = [] ∨ ∃ text, cs = ';' :: text ∧ '\n' ∉ text

/-- The events of what ends a text behind its segments. -/
def lastEvents (before : List Char) (cs : List Char) : List Event :=
  if cs.isEmpty then [] else [.comment (placeAfter before) cs]

/-- Scanning a text that is laid out from segments meets the events of the segments. -/
theorem scan_eq_of_segments {ps : List Segment} (hseparated : Separated ps) {tail : List Char}
    (htail : IsLastComment tail) {text : String} (h : text.toList = charsOf ps ++ tail) :
  Scan.ofText text = ⟨eventsOf [] ps ++ lastEvents (charsOf ps) tail, none⟩
  := by
  obtain ⟨hpassed, htakes⟩ := Scanner.passed_segments hseparated
  rw [Scan.ofText, h, List.foldl_append]
  obtain rfl | ⟨comment, rfl, hcomment⟩ := htail
  · simp [hpassed.events, hpassed.stopped, lastEvents]
  · rw [hpassed.foldl_step (htakes ';' rfl), Scanner.foldl_step_semicolon _ _ hcomment]
    simp [Unfinished.finish, lastEvents]

/-- Scanning a text that is laid out from segments stops at a quotation mark behind them. -/
theorem scan_eq_of_stringMark {ps : List Segment} (hseparated : Separated ps) {rest : List Char}
    {text : String} (h : text.toList = charsOf ps ++ stringMark :: rest) :
  Scan.ofText text = ⟨eventsOf [] ps, some (placeAfter (charsOf ps))⟩
  := by
  obtain ⟨hpassed, htakes⟩ := Scanner.passed_segments hseparated
  have hstep : (Scanner.between (charsOf ps) (eventsOf [] ps)).step stringMark
      = ⟨(eventsOf [] ps).reverse, .none, placeAfter (charsOf ps),
          some (placeAfter (charsOf ps))⟩ := rfl
  rw [Scan.ofText, h, List.foldl_append, hpassed.foldl_step (htakes stringMark rfl),
    List.foldl_cons, hstep, Scanner.foldl_step_of_stopped rfl]
  simp [Unfinished.finish]

/-! ### Every text is laid out -/

/-- A segment in front of segments is separated from them if it is no atom, or if no character of an
atom follows it. -/
theorem Separated.cons {ps : List Segment} (h : Separated ps) {p : Segment} {tail : List Char}
    (hp : p.isAtom → ∀ c cs, charsOf ps ++ tail = c :: cs → isAtomChar c = false) :
  Separated (p :: ps)
  := by
  apply List.isChain_cons.mpr ⟨?_, h⟩
  intro q hq hatom
  obtain ⟨ps', rfl⟩ := List.head?_eq_some_iff.mp hq
  obtain ⟨c, cs, hchars, hc⟩ := q.exists_chars_eq_cons
  rw [← hc]
  apply hp hatom c (cs ++ charsOf ps' ++ tail)
  simp [charsOf, hchars]

/-- Characters laid out from segments, up to a quotation mark or a comment without a line end. -/
def IsLaidOut (cs : List Char) : Prop :=
  ∃ ps tail, Separated ps ∧ cs = charsOf ps ++ tail
    ∧ (IsLastComment tail ∨ ∃ rest, tail = stringMark :: rest)

/-- A segment in front of what is laid out is part of the layout. -/
theorem IsLaidOut.cons {rest : List Char} (h : IsLaidOut rest) (p : Segment)
    (hp : p.isAtom → ∀ c cs, rest = c :: cs → isAtomChar c = false) :
  IsLaidOut (p.chars ++ rest)
  := by
  obtain ⟨ps, tail, hseparated, rfl, htail⟩ := h
  exact ⟨p :: ps, tail, hseparated.cons hp, by simp [charsOf], htail⟩

/-- Every text is laid out. -/
theorem isLaidOut (cs : List Char) : IsLaidOut cs := by
  induction hlength : cs.length using Nat.strong_induction_on generalizing cs with
  | _ n ih =>
    subst hlength
    have hshorter : ∀ rest, rest.length < cs.length → IsLaidOut rest := by
      intro rest hlt
      exact ih rest.length hlt rest rfl
    cases cs with
    | nil => exact ⟨[], [], .nil, rfl, .inl (.inl rfl)⟩
    | cons c cs =>
      have hcs := hshorter cs (by simp)
      by_cases hblank : Text.isBlank c
      · exact hcs.cons (.blank c hblank) (fun h => by contradiction)
      by_cases hdelimiter : isDelimiter c
      · simp only [isDelimiter, Bool.or_eq_true, beq_iff_eq] at hdelimiter
        obtain ((((rfl | rfl) | rfl) | rfl) | rfl) | rfl := hdelimiter
        · exact hcs.cons (.token (.opening .round)) (fun h => by contradiction)
        · exact hcs.cons (.token (.closing .round)) (fun h => by contradiction)
        · exact hcs.cons (.token (.opening .square)) (fun h => by contradiction)
        · exact hcs.cons (.token (.closing .square)) (fun h => by contradiction)
        · by_cases hline : '\n' ∈ cs
          · obtain ⟨text, rest, rfl, htext⟩ := List.eq_append_cons_of_mem hline
            have hrest := hshorter rest (by simp; omega)
            have hlaid := hrest.cons (.comment text htext) (fun h => by contradiction)
            simpa [Segment.chars] using hlaid
          · exact ⟨[], ';' :: cs, .nil, rfl, .inl (.inr ⟨cs, rfl, hline⟩)⟩
        · exact ⟨[], stringMark :: cs, .nil, rfl, .inr ⟨cs, rfl⟩⟩
      · have hc : isAtomChar c := by
          simp [isAtomChar, hblank, hdelimiter]
        have hword : ∀ x ∈ c :: cs.takeWhile isAtomChar, isAtomChar x := by
          rw [List.forall_mem_cons]
          exact ⟨hc, fun x hx => List.mem_takeWhile_imp hx⟩
        have hrest := hshorter (cs.dropWhile isAtomChar)
          (Nat.lt_succ_of_le (List.length_dropWhile_le isAtomChar cs))
        have hlaid := hrest.cons (.token (.atom ⟨c :: cs.takeWhile isAtomChar, by simp, hword⟩)) ?_
        · simpa [Segment.chars, Token.chars, List.takeWhile_append_dropWhile] using hlaid
        · intro _ x xs hxs
          have hhead := List.head?_dropWhile_not isAtomChar cs
          rw [hxs] at hhead
          simpa using hhead

end Springboard
