import Springboard.Emission.Identifier
import Springboard.Operator

/-!
# Tokens

How the text of an expression falls into names, numerals, quoted texts and signs, each as long as
possible. Text that goes on in a way that these expressions do not is refused: reserved words that
no expression here has, signs of assignment, numerals in other notations, prefixes of quoted texts.
-/

namespace Springboard.Grammar

/-- The tokens of expressions. -/
inductive Token
  | name (ident : String)
  | numeral (n : Number)
  | text (content : String)
  | operator (op : BinaryOp)
  /-- The word `not`. -/
  | denial
  /-- The word `lambda`. -/
  | function
  /-- The word `if`. -/
  | choice
  /-- The word `else`. -/
  | otherwise
  | opening
  | closing
  | comma
  | colon

/-! ### Words -/

/-- The words that are no names. -/
def words : List (String × Token) :=
  [("not", .denial), ("lambda", .function), ("if", .choice), ("else", .otherwise),
   ("True", .numeral (.bool true)), ("False", .numeral (.bool false))]

/-- The token of a word. -/
def wordToken? (word : String) : Option Token :=
  match words.lookup word with
  | some t => some t
  | none => if reservedWords.contains word then none else some (.name word)

/-- A mark that quoted texts stand between. -/
def isMark (c : Char) : Bool :=
  c == Text.apostrophe || c == Text.quotationMark

/-- Reads a word. In front of a quoted text it would be a prefix of that. -/
def readWord? (cs : List Char) : Option (Token × List Char) :=
  let rest := cs.dropWhile Text.isContinue
  if rest.head?.any isMark then none
  else (wordToken? (String.ofList (cs.takeWhile Text.isContinue))).map fun t => (t, rest)

/-! ### Numerals -/

/-- The value of a digit. -/
def digit (c : Char) : Nat :=
  c.toNat - '0'.toNat

/-- The digits behind a point. -/
def splitFraction : List Char → Option (List Char) × List Char
  | '.' :: cs => (some (cs.takeWhile Char.isDigit), cs.dropWhile Char.isDigit)
  | cs => (none, cs)

/-- A plus or minus sign. -/
def splitPlusMinus : List Char → Bool × List Char
  | '-' :: cs => (true, cs)
  | '+' :: cs => (false, cs)
  | cs => (false, cs)

/-- The exponent of ten at the end of a numeral. -/
def splitExponent : List Char → Option Int × List Char
  | 'e' :: cs =>
    let (negative, digits) := splitPlusMinus cs
    if (digits.takeWhile Char.isDigit).isEmpty then (none, 'e' :: cs)
    else
      (some (Number.signed negative
        (Text.ofDigits 10 ((digits.takeWhile Char.isDigit).map digit))),
        digits.dropWhile Char.isDigit)
  | cs => (none, cs)

/-- The integer of some digits, which has no more zeros in front than it needs. -/
def integer? (digits : List Char) : Option Number :=
  if Number.digitLimit < digits.length || (digits.head? == some '0' && digits.length != 1) then none
  else some (.int (Text.ofDigits 10 (digits.map digit)))

/-- The number of a numeral: a float if there is a point or an exponent. -/
def number? (whole : List Char) : Option (List Char) → Option Int → Option Number
  | none, none => integer? whole
  | fraction?, exponent? =>
    let fraction := fraction?.getD []
    some (.float (Number.nearest ((whole ++ fraction).map digit)
      (exponent?.getD 0 - fraction.length)))

/-- Reads a numeral. -/
def readNumeral? (cs : List Char) : Option (Token × List Char) :=
  let (fraction?, rest) := splitFraction (cs.dropWhile Char.isDigit)
  let (exponent?, rest) := splitExponent rest
  if rest.head?.any fun c => Text.isContinue c || c == '.' then none
  else
    (number? (cs.takeWhile Char.isDigit) fraction? exponent?).map fun n => (.numeral n, rest)

/-! ### Quoted texts and signs -/

/-- Reads a quoted text without escapes up to the mark that it began with. -/
def readText? (mark : Char) (cs : List Char) : Option (Token × List Char) :=
  let plain := fun c => c != mark && c != '\\' && c != '\n'
  match cs.dropWhile plain with
  | [] => none
  | c :: rest =>
    -- three marks in a row begin a text of several lines
    if c != mark || ((cs.takeWhile plain).isEmpty && rest.head? == some mark) then none
    else some (.text (String.ofList (cs.takeWhile plain)), rest)

/-- The signs, longer ones in front of those that they begin with. Some have no place in
expressions. -/
def signs : List (String × Option Token) :=
  [("**=", none), ("//=", none), ("<<=", none), (">>=", none), ("**", none), ("<<", none),
   (">>", none), ("<>", none), ("->", none), (":=", none), ("+=", none), ("-=", none),
   ("*=", none), ("/=", none), ("%=", none),
   ("//", some (.operator .quot)), ("<=", some (.operator .le)), (">=", some (.operator .ge)),
   ("==", some (.operator .eq)), ("!=", some (.operator .ne)),
   ("+", some (.operator .add)), ("-", some (.operator .sub)), ("*", some (.operator .mul)),
   ("/", some (.operator .div)), ("%", some (.operator .mod)), ("<", some (.operator .lt)),
   (">", some (.operator .gt)),
   ("(", some .opening), (")", some .closing), (",", some .comma), (":", some .colon)]

/-- Reads the longest sign. -/
def readSign? (cs : List Char) : Option (Token × List Char) :=
  (signs.find? fun s => s.1.toList.isPrefixOf cs).bind fun s =>
    s.2.map fun t => (t, cs.drop s.1.toList.length)

/-! ### Texts -/

/-- Reads a token from the front of a text. -/
def readToken? : List Char → Option (Token × List Char)
  | [] => none
  | c :: cs =>
    if Text.isStart c then readWord? (c :: cs)
    else if c.isDigit then readNumeral? (c :: cs)
    else if isMark c then readText? c cs
    else readSign? (c :: cs)

/-- The tokens of a text, with blanks between them. -/
def tokens? : List Char → Option (List Token)
  | [] => some []
  | c :: cs =>
    if c = ' ' then tokens? cs
    else
      match readToken? (c :: cs) with
      | none => none
      | some (t, rest) =>
        if rest.length ≤ cs.length then (tokens? rest).map (t :: ·) else none
termination_by cs => cs.length
decreasing_by
  · simp
  · simp
    omega

/-! ### Where tokens end -/

/-- The characters that stand behind an expression. -/
def stops : List Char :=
  [' ', '(', ')', ',', ':']

/-- No token in front goes on with a text. -/
def Stops (cs : List Char) : Prop :=
  ∀ c ∈ cs.head?, c ∈ stops

/-- A text is read as some tokens, whatever stands behind it, and it makes no longer sign of a sign
in front of it. -/
structure Lexes (cs : List Char) (ts : List Token) : Prop where
  first : ∀ c ∈ cs.head?, c ≠ '>' ∧ c ≠ '='
  tokens : ∀ rest us, Stops rest → tokens? rest = some us → tokens? (cs ++ rest) = some (ts ++ us)

/-- The characters behind an expression belong to no word and to no numeral. -/
theorem isContinue_of_mem_stops :
  ∀ c ∈ stops, Text.isContinue c = false ∧ isMark c = false ∧ c.isDigit = false ∧ c ≠ '.' ∧ c ≠ 'e'
  := by
  have hall : (stops.all fun c => decide (Text.isContinue c = false ∧ isMark c = false
      ∧ c.isDigit = false ∧ c ≠ '.' ∧ c ≠ 'e')) = true := by
    decide +kernel
  intro c hc
  exact of_decide_eq_true (List.all_eq_true.mp hall c hc)

/-- The characters behind an expression end no longer sign. -/
theorem ne_of_mem_stops {c : Char} (hc : c ∈ stops) : c ≠ '>' ∧ c ≠ '=' := by
  constructor <;> (rintro rfl; exact absurd hc (by decide))

/-- A stop stands in front. -/
theorem stops_cons {c : Char} (hc : c ∈ stops) (cs : List Char) : Stops (c :: cs) := by
  intro d hd
  cases hd
  exact hc

/-- A row of characters ends where one does not belong to it. -/
theorem split_append {p : Char → Bool} {cs rest : List Char} (hcs : ∀ c ∈ cs, p c = true)
    (hrest : ∀ c ∈ rest.head?, p c = false) :
  (cs ++ rest).takeWhile p = cs ∧ (cs ++ rest).dropWhile p = rest
  := by
  rw [List.takeWhile_append_of_pos hcs, List.dropWhile_append_of_pos hcs]
  cases rest with
  | nil => simp
  | cons c rest =>
    have hc := hrest c rfl
    simp [hc]

/-- A text begins with a token. -/
theorem tokens?_of_readToken? {c : Char} {cs rest : List Char} {t : Token} {us : List Token}
    (hc : c ≠ ' ') (hread : readToken? (c :: cs) = some (t, rest))
    (hlength : rest.length ≤ cs.length) (h : tokens? rest = some us) :
  tokens? (c :: cs) = some (t :: us)
  := by
  rw [tokens?, if_neg hc, hread]
  dsimp only
  rw [if_pos hlength, h]
  rfl

/-- Blanks are skipped. -/
theorem tokens?_blank (cs : List Char) : tokens? (' ' :: cs) = tokens? cs := by
  rw [tokens?, if_pos rfl]

/-- A sign begins with no letter, digit, mark or blank. -/
theorem of_readSign? {c : Char} {cs : List Char} {read : Token × List Char}
    (h : readSign? (c :: cs) = some read) :
  Text.isStart c = false ∧ c.isDigit = false ∧ isMark c = false ∧ c ≠ ' '
  := by
  have hall : (signs.all fun s => s.1.toList.head?.any fun c =>
      decide (Text.isStart c = false ∧ c.isDigit = false ∧ isMark c = false ∧ c ≠ ' ')) = true := by
    decide +kernel
  obtain ⟨s, hs, -⟩ := Option.bind_eq_some_iff.mp h
  have hsign := List.all_eq_true.mp hall s (List.mem_of_find?_eq_some hs)
  have hprefix := List.find?_some hs
  cases hchars : s.1.toList with
  | nil =>
    rw [hchars] at hsign
    exact absurd hsign Bool.false_ne_true
  | cons d ds =>
    rw [hchars] at hsign hprefix
    rw [List.isPrefixOf, Bool.and_eq_true, beq_iff_eq] at hprefix
    rw [← hprefix.1]
    exact of_decide_eq_true hsign

/-- A text begins with a sign. -/
theorem tokens?_of_readSign? {c : Char} {cs rest : List Char} {t : Token} {us : List Token}
    (hread : readSign? (c :: cs) = some (t, rest)) (hlength : rest.length ≤ cs.length)
    (h : tokens? rest = some us) :
  tokens? (c :: cs) = some (t :: us)
  := by
  obtain ⟨hstart, hdigit, hmark, hblank⟩ := of_readSign? hread
  refine tokens?_of_readToken? hblank ?_ hlength h
  rw [readToken?, hstart, hdigit, hmark]
  exact hread

section Signs

variable {cs : List Char} {us : List Token} (h : tokens? cs = some us)

include h

/-- An opening bracket. -/
theorem tokens?_opening : tokens? ('(' :: cs) = some (.opening :: us) := by
  exact tokens?_of_readSign? rfl (Nat.le_refl _) h

/-- A closing bracket. -/
theorem tokens?_closing : tokens? (')' :: cs) = some (.closing :: us) := by
  exact tokens?_of_readSign? rfl (Nat.le_refl _) h

/-- A comma. -/
theorem tokens?_comma : tokens? (',' :: cs) = some (.comma :: us) := by
  exact tokens?_of_readSign? rfl (Nat.le_refl _) h

/-- A colon in front of a blank. -/
theorem tokens?_colon : tokens? (':' :: ' ' :: cs) = some (.colon :: us) := by
  have hblank : tokens? (' ' :: cs) = some us := by
    rwa [tokens?_blank]
  exact tokens?_of_readSign? rfl (Nat.le_refl _) hblank

/-- A minus sign, unless it begins an arrow or an assignment. -/
theorem tokens?_minus (hfirst : ∀ c ∈ cs.head?, c ≠ '>' ∧ c ≠ '=') :
  tokens? ('-' :: cs) = some (.operator .sub :: us)
  := by
  have hread : readSign? ('-' :: cs) = some (.operator .sub, cs) := by
    cases cs with
    | nil => rfl
    | cons c cs =>
      obtain ⟨hgreater, hequal⟩ := hfirst c rfl
      simp [readSign?, signs, List.find?, List.isPrefixOf, beq_false_of_ne hgreater.symm,
        beq_false_of_ne hequal.symm]
  exact tokens?_of_readSign? hread (Nat.le_refl _) h

/-- An operator between blanks. -/
theorem tokens?_operator (op : BinaryOp) :
  tokens? (' ' :: (op.symbol.toList ++ ' ' :: cs)) = some (.operator op :: us)
  := by
  have hblank : tokens? (' ' :: cs) = some us := by
    rwa [tokens?_blank]
  rw [tokens?_blank]
  cases op <;> exact tokens?_of_readSign? rfl (by simp) hblank

end Signs

/-- A word that is not reserved is a name. -/
theorem wordToken?_of_notMem {word : String} (h : word ∉ reservedWords) :
  wordToken? word = some (.name word)
  := by
  have hwords : ∀ w ∈ words, w.1 ∈ reservedWords := by decide
  have hlookup : words.lookup word = none := by
    rw [List.lookup_eq_none_iff]
    intro w hw
    rw [bne_iff_ne]
    rintro rfl
    exact h (hwords w hw)
  rw [wordToken?, hlookup]
  dsimp only
  rw [if_neg (by rwa [List.contains_iff_mem])]

/-- A word is read as its token. -/
theorem lexes_word {word : String} {t : Token} (hword : Text.isIdentifier word.toList = true)
    (ht : wordToken? word = some t) :
  Lexes word.toList [t]
  := by
  cases hcs : word.toList with
  | nil =>
    rw [hcs] at hword
    contradiction
  | cons c cs =>
    rw [hcs, Text.isIdentifier, Bool.and_eq_true, List.all_eq_true] at hword
    obtain ⟨hstart, hcontinue⟩ := hword
    have hother : ∀ d, Text.isStart d = false → c ≠ d := by
      rintro d hd rfl
      rw [hstart] at hd
      contradiction
    refine ⟨?_, fun rest us hrest h => ?_⟩
    · intro d hd
      cases hd
      exact ⟨hother _ (by decide +kernel), hother _ (by decide +kernel)⟩
    have hall : ∀ d ∈ c :: cs, Text.isContinue d = true := by
      intro d hd
      obtain rfl | hd := List.mem_cons.mp hd
      · rw [Text.isContinue, hstart, Bool.true_or]
      · exact hcontinue d hd
    obtain ⟨htake, hdrop⟩ := split_append hall fun d hd =>
      (isContinue_of_mem_stops d (hrest d hd)).1
    have hread : readToken? (c :: cs ++ rest) = some (t, rest) := by
      rw [List.cons_append, readToken?, if_pos hstart, ← List.cons_append, readWord?]
      rw [htake, hdrop, ← hcs, String.ofList_toList, ht]
      have hmark : rest.head?.any isMark = false := by
        cases rest with
        | nil => rfl
        | cons d rest => exact (isContinue_of_mem_stops d (hrest d rfl)).2.1
      rw [hmark]
      rfl
    exact tokens?_of_readToken? (hother _ (by decide +kernel)) hread (by simp) h

/-- A text without marks and escapes is read between apostrophes. -/
theorem lexes_text {content : List Char} (hsome : content ≠ [])
    (hplain : ∀ c ∈ content, (c != Text.apostrophe && c != '\\' && c != '\n') = true) :
  Lexes (Text.apostrophe :: (content ++ [Text.apostrophe])) [.text (String.ofList content)]
  := by
  refine ⟨fun c hc => ?_, fun rest us hrest h => ?_⟩
  · cases hc
    decide
  · have hend : ∀ c ∈ (Text.apostrophe :: rest).head?,
        (c != Text.apostrophe && c != '\\' && c != '\n') = false := by
      intro c hc
      cases hc
      decide
    obtain ⟨htake, hdrop⟩ := split_append hplain hend
    have hread : readText? Text.apostrophe (content ++ Text.apostrophe :: rest)
        = some (.text (String.ofList content), rest) := by
      unfold readText?
      dsimp only
      rw [hdrop]
      dsimp only
      rw [htake, List.isEmpty_eq_false_iff.mpr hsome]
      rfl
    rw [List.cons_append, List.append_assoc]
    refine tokens?_of_readToken? (by decide) ?_ (by simp; omega) h
    have hmark : Text.isStart Text.apostrophe = false ∧ Text.apostrophe.isDigit = false
        ∧ isMark Text.apostrophe = true := by
      decide +kernel
    rw [readToken?, hmark.1, hmark.2.1, hmark.2.2]
    exact hread

/-! ### Putting texts together -/

/-- A text that begins with a stop is read as some tokens in front of any other. -/
structure Separates (sep : List Char) (ts : List Token) : Prop where
  stop : ∀ cs, Stops (sep ++ cs)
  tokens : ∀ {cs us}, tokens? cs = some us → tokens? (sep ++ cs) = some (ts ++ us)

/-- A text that begins with a stop. -/
theorem Separates.of_cons {c : Char} {sep : List Char} {ts : List Token} (hc : c ∈ stops)
    (h : ∀ {cs us}, tokens? cs = some us → tokens? (c :: sep ++ cs) = some (ts ++ us)) :
  Separates (c :: sep) ts
  := by
  exact ⟨fun cs => stops_cons hc _, h⟩

namespace Separates

/-- A blank. -/
theorem blank : Separates [' '] [] := by
  refine .of_cons (by decide) fun {cs us} h => ?_
  rwa [List.cons_append, tokens?_blank]

/-- An opening bracket. -/
theorem opening : Separates ['('] [.opening] := by
  exact .of_cons (by decide) tokens?_opening

/-- A closing bracket. -/
theorem closing : Separates [')'] [.closing] := by
  exact .of_cons (by decide) tokens?_closing

/-- A comma with a blank behind it. -/
theorem comma : Separates ", ".toList [.comma] := by
  refine .of_cons (by decide) fun {cs us} h => tokens?_comma ?_
  exact blank.tokens h

/-- A colon with a blank behind it. -/
theorem colon : Separates ": ".toList [.colon] := by
  exact .of_cons (by decide) tokens?_colon

/-- An operator between blanks. -/
theorem operator (op : BinaryOp) : Separates (" " ++ op.symbol ++ " ").toList [.operator op] := by
  have hsep : (" " ++ op.symbol ++ " ").toList = ' ' :: (op.symbol.toList ++ [' ']) := by
    rw [String.toList_append, String.toList_append]
    rfl
  rw [hsep]
  refine .of_cons (by decide) fun {cs us} h => ?_
  rw [List.cons_append, List.append_assoc]
  exact tokens?_operator h op

/-- A word between blanks. -/
theorem word {word : String} {t : Token} (hword : Text.isIdentifier word.toList = true)
    (ht : wordToken? word = some t) :
  Separates (" " ++ word ++ " ").toList [t]
  := by
  have hsep : (" " ++ word ++ " ").toList = ' ' :: (word.toList ++ [' ']) := by
    rw [String.toList_append, String.toList_append]
    rfl
  rw [hsep]
  refine .of_cons (by decide) fun {cs us} h => ?_
  rw [List.cons_append, List.append_assoc, tokens?_blank]
  exact (lexes_word hword ht).tokens _ _ (blank.stop cs) (blank.tokens h)

end Separates

namespace Lexes

variable {cs ds sep : List Char} {ts us mid : List Token}

/-- The empty text has no tokens. -/
theorem nil : Lexes [] [] := by
  exact ⟨by simp, fun _ _ _ h => h⟩

/-- A text between others. -/
theorem append (h : Lexes cs ts) (hsep : Separates sep mid) (h' : Lexes ds us) :
  Lexes (cs ++ (sep ++ ds)) (ts ++ (mid ++ us))
  := by
  refine ⟨?_, fun rest vs hrest hvs => ?_⟩
  · cases cs with
    | nil =>
      intro c hc
      exact ne_of_mem_stops (hsep.stop ds c hc)
    | cons c cs => exact h.first
  · rw [List.append_assoc, List.append_assoc, List.append_assoc, List.append_assoc]
    exact h.tokens _ _ (hsep.stop _) (hsep.tokens (h'.tokens rest vs hrest hvs))

/-- A text with a stop behind it. -/
theorem close (h : Lexes cs ts) (hsep : Separates sep mid) : Lexes (cs ++ sep) (ts ++ mid) := by
  have happend := h.append hsep .nil
  rwa [List.append_nil, List.append_nil] at happend

/-- A text with a stop in front of it. -/
theorem following (hsep : Separates sep mid) (h : Lexes cs ts) : Lexes (sep ++ cs) (mid ++ ts) := by
  exact Lexes.nil.append hsep h

/-- A text with a minus sign in front of it. -/
theorem minus (h : Lexes cs ts) : Lexes ('-' :: cs) (.operator .sub :: ts) := by
  refine ⟨fun c hc => ?_, fun rest us hrest hus => ?_⟩
  · cases hc
    decide
  · apply tokens?_minus (h.tokens rest us hrest hus)
    intro c hc
    cases cs with
    | nil => exact ne_of_mem_stops (hrest c hc)
    | cons d cs => exact h.first c hc

end Lexes

end Springboard.Grammar
