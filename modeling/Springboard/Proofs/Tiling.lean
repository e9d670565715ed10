import Springboard.Proofs.Balance

/-!
# Events tile the text

The events of a text stand behind one another in it, with nothing but blanks of the same line
between them. Each event has its exact place, an atom reaches as far as it can on both sides, and a
comment reaches up to the end of its line. Main statement: this holds of the whole text if there is
no quotation mark outside of its comments, and otherwise of what stands before the first of those,
whose place the error has.
-/

namespace Springboard

/-- An event stands for all that belongs to it where it has some characters before it and some
behind it. -/
def Event.Spans (before after : List Char) : Event → Prop
  | newline _ | opening _ _ | closing _ _ => True
  | comment _ text =>
    text.head? = some ';' ∧ '\n' ∉ text ∧ ∀ c ∈ after.head?, c = '\n'
  | atom _ text =>
    text ≠ [] ∧ (∀ c ∈ text, isAtomChar c) ∧ (∀ c ∈ before.getLast?, isAtomChar c = false)
      ∧ ∀ c ∈ after.head?, isAtomChar c = false

/-- Behind the characters `before`, a text goes on with the given events up to `tail`, and has
blanks between them that end no line. Each event is at its place and stands for all that belongs to
it. -/
inductive Tiles (tail : List Char) : List Char → List Char → List Event → Prop
  | nil (before : List Char) : Tiles tail before tail []
  | blank {before cs : List Char} {es : List Event} {c : Char} (hblank : Text.isBlank c)
      (hline : c ≠ '\n') (h : Tiles tail (before ++ [c]) cs es) : Tiles tail before (c :: cs) es
  | event {before cs : List Char} {es : List Event} {e : Event}
      (hplace : e.place = placeAfter before) (hspans : e.Spans before cs)
      (h : Tiles tail (before ++ e.source) cs es) : Tiles tail before (e.source ++ cs) (e :: es)

/-! ### Segments are tiled -/

/-- A segment ends in a character of an atom just when it is one. -/
theorem Segment.isAtomChar_getLast? (p : Segment) :
  ∀ c ∈ p.chars.getLast?, isAtomChar c = p.isAtom
  := by
  match p with
  | blank c hc =>
    rintro _ ⟨⟩
    simp [isAtomChar, hc, isAtom]
  | comment text _ =>
    intro c hc
    rw [chars, List.getLast?_concat] at hc
    cases hc
    rfl
  | token (.opening .round) | token (.opening .square) | token (.closing .round)
  | token (.closing .square) =>
    rintro _ ⟨⟩
    rfl
  | token (.atom word) =>
    intro c hc
    exact word.isAtomChar_of_mem c (List.mem_of_getLast? hc)

namespace Tiles

variable {tail before cs : List Char} {es : List Event}

/-- A segment in front of what is tiled is tiled by its events. -/
theorem segment (p : Segment) (hbefore : p.isAtom → ∀ c ∈ before.getLast?, isAtomChar c = false)
    (hafter : p.isAtom → ∀ c ∈ cs.head?, isAtomChar c = false)
    (h : Tiles tail (before ++ p.chars) cs es) :
  Tiles tail before (p.chars ++ cs) (p.events before ++ es)
  := by
  cases p with
  | blank c hc =>
    by_cases hline : c = '\n'
    · subst hline
      exact .event (e := .newline (placeAfter before)) rfl trivial h
    · rw [Segment.events, if_neg hline]
      exact .blank hc hline h
  | comment text htext =>
    have hnewline : Tiles tail (before ++ ';' :: text) ('\n' :: cs)
        (.newline (placeAfter (before ++ ';' :: text)) :: es) := by
      refine Tiles.event (e := .newline _) rfl trivial ?_
      simpa [Segment.chars, Event.source] using h
    have hspans : (Event.comment (placeAfter before) (';' :: text)).Spans before ('\n' :: cs) := by
      refine ⟨rfl, ?_, ?_⟩
      · simpa using htext
      · rintro c ⟨⟩
        rfl
    have hchars : (Segment.comment text htext).chars ++ cs = (';' :: text) ++ '\n' :: cs := by
      simp [Segment.chars]
    rw [hchars]
    exact .event (e := .comment (placeAfter before) (';' :: text)) rfl hspans hnewline
  | token t =>
    cases t with
    | opening b => exact .event (e := .opening (placeAfter before) b) rfl trivial h
    | closing b => exact .event (e := .closing (placeAfter before) b) rfl trivial h
    | atom word =>
      refine .event (e := .atom (placeAfter before) word.chars) rfl ⟨word.ne_nil, ?_, ?_, ?_⟩ h
      · exact word.isAtomChar_of_mem
      · exact hbefore rfl
      · exact hafter rfl

/-- Segments in front of what is tiled are tiled by their events. The characters before them end in
the segment `q`, so that an atom does not follow upon an atom. -/
theorem segments {q : Segment} {ps : List Segment} (hseparated : Separated (q :: ps))
    (hbefore : ∀ c ∈ before.getLast?, isAtomChar c → q.isAtom)
    (hafter : ∀ c ∈ cs.head?, isAtomChar c = false)
    (h : Tiles tail (before ++ charsOf ps) cs es) :
  Tiles tail before (charsOf ps ++ cs) (eventsOf before ps ++ es)
  := by
  induction ps generalizing before q with
  | nil => simpa [charsOf, eventsOf] using h
  | cons p ps ih =>
    obtain ⟨hfirst, hrest⟩ := List.isChain_cons_cons.mp hseparated
    have hchars : charsOf (p :: ps) = p.chars ++ charsOf ps := rfl
    rw [hchars, ← List.append_assoc] at h
    rw [hchars, List.append_assoc, eventsOf, List.append_assoc]
    apply segment p
    · intro hatom c hc
      by_contra hchar
      have hsecond := hfirst (hbefore c hc (by simpa using hchar))
      rw [hatom] at hsecond
      contradiction
    · intro hatom c hc
      cases ps with
      | nil => exact hafter c hc
      | cons p' ps' =>
        obtain ⟨c', cs', hp', hc'⟩ := p'.exists_chars_eq_cons
        have hnext : charsOf (p' :: ps') ++ cs = c' :: (cs' ++ charsOf ps' ++ cs) := by
          simp [charsOf, hp']
        rw [hnext] at hc
        cases hc
        rw [hc']
        exact (List.isChain_cons_cons.mp hrest).1 hatom
    · apply ih hrest _ h
      obtain ⟨c', cs', hp, -⟩ := p.exists_chars_eq_cons
      intro c hc hchar
      rw [← p.isAtomChar_getLast? c, hchar]
      rwa [List.getLast?_append_of_ne_nil _ (by simp [hp])] at hc

/-- From the start of a text, segments are tiled by their events. -/
theorem of_segments {ps : List Segment} (hseparated : Separated ps)
    (hafter : ∀ c ∈ cs.head?, isAtomChar c = false) (h : Tiles tail (charsOf ps) cs es) :
  Tiles tail [] (charsOf ps ++ cs) (eventsOf [] ps ++ es)
  := by
  have hblank : Separated (.blank ' ' rfl :: ps) := by
    apply List.isChain_cons.mpr ⟨?_, hseparated⟩
    intro q _ hatom
    contradiction
  apply segments hblank _ hafter h
  intro c hc
  contradiction

/-- A comment that no line end follows tiles the end of a text. -/
theorem lastComment {cs : List Char} (h : IsLastComment cs) (before : List Char) :
  Tiles [] before cs (lastEvents before cs)
  := by
  obtain rfl | ⟨text, rfl, htext⟩ := h
  · exact .nil before
  · have hspans : (Event.comment (placeAfter before) (';' :: text)).Spans before [] := by
      refine ⟨rfl, ?_, ?_⟩
      · simpa using htext
      · intro c hc
        contradiction
    have hcomment : Tiles [] before ((';' :: text) ++ []) (lastEvents before (';' :: text)) :=
      .event (e := .comment (placeAfter before) (';' :: text)) rfl hspans (.nil _)
    rwa [List.append_nil] at hcomment

end Tiles

/-! ### Texts are tiled -/

/-- A text without a quotation mark outside of its comments is laid out from segments to its
end. -/
theorem exists_segments {cs : List Char} (h : stringMark ∉ uncommented false cs) :
  ∃ ps tail, Separated ps ∧ cs = charsOf ps ++ tail ∧ IsLastComment tail
  := by
  obtain ⟨ps, tail, hseparated, rfl, htail | ⟨rest, rfl⟩⟩ := isLaidOut cs
  · exact ⟨ps, tail, hseparated, rfl, htail⟩
  · rw [uncommented_charsOf_append, uncommented_cons (by decide)] at h
    exact absurd (List.mem_append_right _ List.mem_cons_self) h

/-- What stands before the first quotation mark outside of comments is laid out from segments. -/
theorem exists_segments_before {before : List Char} (h : stringMark ∉ uncommented false before)
    (houtside : commentAfter false before = false) :
  ∃ ps, Separated ps ∧ before = charsOf ps
  := by
  obtain ⟨ps, tail, hseparated, rfl, rfl | ⟨text, rfl, htext⟩⟩ := exists_segments h
  · exact ⟨ps, hseparated, List.append_nil _⟩
  · obtain ⟨-, hafter, -⟩ := uncommented_charsOf ps
    have hinside : commentAfter false (';' :: text) = true := (uncommented_comment htext).2
    rw [commentAfter_append, hafter, hinside] at houtside
    contradiction

/-- **Events tile the text.** If no quotation mark stands outside of its comments, the events of a
text tile it. Otherwise they tile what stands before the first such mark, and scanning ends with the
error that has the place of the mark. -/
theorem scan_tiles (text : String) :
  (stringMark ∉ uncommented false text.toList →
      (Scan.ofText text).error? = none ∧ Tiles [] [] text.toList (Scan.ofText text).events)
    ∧ ∀ before rest, text.toList = before ++ stringMark :: rest →
      stringMark ∉ uncommented false before → commentAfter false before = false →
        (Scan.ofText text).error? = some (.unreadable .stringLiteral (some (placeAfter before)))
          ∧ Tiles (stringMark :: rest) [] text.toList (Scan.ofText text).events
  := by
  constructor
  · intro hmark
    obtain ⟨ps, tail, hseparated, htext, htail⟩ := exists_segments hmark
    rw [scan_eq_of_segments hseparated htail htext, htext]
    refine ⟨rfl, .of_segments hseparated ?_ (.lastComment htail _)⟩
    obtain rfl | ⟨comment, rfl, -⟩ := htail
    · intro c hc
      contradiction
    · rintro c ⟨⟩
      rfl
  · intro before rest htext hmark houtside
    obtain ⟨ps, hseparated, rfl⟩ := exists_segments_before hmark houtside
    rw [scan_eq_of_stringMark hseparated htext, htext]
    refine ⟨rfl, ?_⟩
    have hafter : ∀ c ∈ (stringMark :: rest).head?, isAtomChar c = false := by
      rintro c ⟨⟩
      rfl
    have htiles := Tiles.of_segments hseparated hafter (.nil (charsOf ps))
    rwa [List.append_nil] at htiles

/-- A quotation mark in a comment is passed over, and one behind an atom is not. -/
theorem scan_tiles_hiddenMark :
  stringMark ∉ uncommented false "x;\"\n(y)".toList
    ∧ (Scan.ofText "x;\"\n(y)").error? = none
    ∧ Tiles [] [] "x;\"\n(y)".toList (Scan.ofText "x;\"\n(y)").events
    ∧ (Scan.ofText ";\"\n ab\"c").error? = some (.unreadable .stringLiteral (some ⟨2, 3⟩))
    ∧ Tiles [stringMark, 'c'] [] ";\"\n ab\"c".toList (Scan.ofText ";\"\n ab\"c").events
  := by
  have hmark : stringMark ∉ uncommented false "x;\"\n(y)".toList := by decide
  obtain ⟨hnone, htiles⟩ := (scan_tiles "x;\"\n(y)").1 hmark
  obtain ⟨herror, hprefix⟩ := (scan_tiles ";\"\n ab\"c").2
    [';', stringMark, '\n', ' ', 'a', 'b'] ['c'] rfl (by decide) rfl
  exact ⟨hmark, hnone, htiles, herror, hprefix⟩

end Springboard
