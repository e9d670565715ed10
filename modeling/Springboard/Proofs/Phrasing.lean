import Springboard.Emission.Piece
import Springboard.Machine.Code
import Springboard.Proofs.Grammar
import Springboard.Proofs.Numerals
import Springboard.Proofs.Retention

/-!
# Texts of expressions

How an expression is put together from the texts of its parts: with brackets around operations,
choices and functions, and none around names, literals and calls. What matters is how tightly each
text hangs together, so that it can stand in the next one. A text that is put together in this way
is read as its expression and as nothing else.
-/

namespace Springboard.Grammar

open Machine

/-! ### Expressions of codes -/

namespace Expression

/-- The expression that a number is written as. Numerals have no sign, and floats that are not
finite have no numeral. -/
def ofNumber : Number → Expression
  | .bool b => number (.bool b)
  | .int n => if n < 0 then negate (number (.int n.natAbs)) else number (.int n)
  | .float x =>
    if !Binary64.isFinite x then call (name "float") [text (Number.floatText x)]
    else if Binary64.isNegative x then negate (number (.float (Binary64.withSign false x)))
    else number (.float x)

/-- The expression of two operands. -/
def ofBinary (op : BinaryOp) (left right : Expression) : Expression :=
  if op.level = .comparison then comparison left [op] [right] else binary op left right

mutual

/-- The expression that a code is written as. -/
def ofCode : Code → Expression
  | .constant n => ofNumber n
  | .name x => name x
  | .negate a => negate (ofCode a)
  | .deny a => deny (ofCode a)
  | .binary op a b => ofBinary op (ofCode a) (ofCode b)
  | .choose test conseq alt => choose (ofCode test) (ofCode conseq) (ofCode alt)
  | .lambda params body => lambda params (ofCode body)
  | .call f args => call (ofCode f) (ofCodes args)

/-- The expressions that some codes are written as. -/
def ofCodes : List Code → List Expression
  | [] => []
  | a :: rest => ofCode a :: ofCodes rest

end

/-- Codes are written one by one. -/
theorem ofCodes_eq_map (codes : List Code) : ofCodes codes = codes.map ofCode := by
  induction codes with
  | nil => rfl
  | cons a rest ih => rw [ofCodes, ih, List.map_cons]

end Expression

/-! ### Texts of expressions -/

/-- Texts with commas between them. -/
theorem lexes_intercalate {sources : List String} {rows : List (List Token)}
    (h : List.Forall₂ (fun s ts => Lexes s.toList ts) sources rows) :
  Lexes (", ".intercalate sources).toList (commas rows)
  := by
  induction h with
  | nil => exact .nil
  | @cons s ts sources rows hs h ih =>
    cases h with
    | nil => rwa [String.intercalate_singleton, commas_singleton]
    | cons hnext hrest =>
      rw [String.intercalate_cons_cons, commas_cons, String.toList_append, String.toList_append,
        List.append_assoc]
      exact hs.append .comma ih

/-- A text is read as an expression of a level. -/
def IsText (l : Level) (s : String) (e : Expression) : Prop :=
  ∃ ts, Lexes s.toList ts ∧ Derives l ts e

/-- A text is an expression as a whole. -/
def Reads (text : String) (e : Expression) : Prop :=
  ∃ ts, tokens? text.toList = some ts ∧ Derives .expression ts e

namespace IsText

variable {l l' : Level} {s s' : String} {e e' : Expression}

/-- The text of an expression is a text of any looser level. -/
theorem up (h : IsText l s e) (hle : l.rank ≤ l'.rank) : IsText l' s e := by
  obtain ⟨ts, hlexes, hderives⟩ := h
  exact ⟨ts, hlexes, hderives.up hle⟩

/-- A name. -/
theorem name (x : String) : IsText .atom (mangle x) (.name (mangle x)) := by
  obtain ⟨hident, hreserved⟩ := isPlain_mangle x
  exact ⟨[.name (mangle x)], lexes_word hident (wordToken?_of_notMem hreserved), .name _⟩

/-- An expression in brackets. -/
theorem group (h : IsText l s e) : IsText .atom ("(" ++ s ++ ")") e := by
  have hle : l.rank ≤ Level.expression.rank := by
    cases l <;> decide
  obtain ⟨ts, hlexes, hderives⟩ := h.up hle
  refine ⟨.opening :: (ts ++ [.closing]), ?_, .group hderives⟩
  rw [String.toList_append, String.toList_append, List.append_assoc]
  exact .following .opening (hlexes.close .closing)

/-- A minus sign in front of an expression. -/
theorem negate (h : IsText .factor s e) : IsText .factor ("-" ++ s) (.negate e) := by
  obtain ⟨ts, hlexes, hderives⟩ := h
  refine ⟨.operator .sub :: ts, ?_, .negate hderives⟩
  rw [String.toList_append]
  exact hlexes.minus

/-- A denial. -/
theorem deny (h : IsText .inversion s e) : IsText .inversion ("not " ++ s) (.deny e) := by
  obtain ⟨ts, hlexes, hderives⟩ := h
  refine ⟨.denial :: ts, ?_, .deny hderives⟩
  have hword : Lexes "not".toList [.denial] := lexes_word (by decide +kernel) rfl
  rw [String.toList_append]
  exact hword.append .blank hlexes

/-- An operator between two operands. -/
theorem operation {op : BinaryOp} (h : IsText op.level s e) (h' : IsText op.operandLevel s' e')
    (hop : op.level ≠ .comparison) :
  IsText op.level (s ++ (" " ++ op.symbol ++ " ") ++ s') (.binary op e e')
  := by
  obtain ⟨ts, hlexes, hderives⟩ := h
  obtain ⟨us, hlexes', hderives'⟩ := h'
  refine ⟨ts ++ .operator op :: us, ?_, .binary hop hderives hderives'⟩
  rw [String.toList_append, String.toList_append, List.append_assoc]
  exact hlexes.append (.operator op) hlexes'

/-- A comparison. -/
theorem comparison {op : BinaryOp} (h : IsText .sum s e) (h' : IsText .sum s' e')
    (hop : op.level = .comparison) :
  IsText .comparison (s ++ (" " ++ op.symbol ++ " ") ++ s') (.comparison e [op] [e'])
  := by
  obtain ⟨ts, hlexes, hderives⟩ := h
  obtain ⟨us, hlexes', hderives'⟩ := h'
  have hrest : ∀ r ∈ [(op, us, e')], Derives .sum r.2.1 r.2.2 := by
    simpa using hderives'
  refine ⟨ts ++ .operator op :: us, ?_, ?_⟩
  · rw [String.toList_append, String.toList_append, List.append_assoc]
    exact hlexes.append (.operator op) hlexes'
  · have hcomparison :=
      Derives.comparison (List.cons_ne_nil _ _) (by simpa using hop) hderives hrest
    simpa using hcomparison

/-- Two operands in brackets. -/
theorem pair {op : BinaryOp} (h : IsText .factor s e) (h' : IsText .factor s' e') :
  IsText .atom (Operator.joined op [s, s']) (.ofBinary op e e')
  := by
  have hjoined : Operator.joined op [s, s']
      = "(" ++ (s ++ (" " ++ op.symbol ++ " ") ++ s') ++ ")" := by
    rw [Operator.joined, String.intercalate_cons_cons, String.intercalate_singleton]
  rw [hjoined, Expression.ofBinary]
  split
  · rename_i hop
    exact group (comparison (h.up (by decide)) (h'.up (by decide)) hop)
  · rename_i hop
    apply group (operation (h.up ?_) (h'.up ?_) hop)
    · cases op <;> decide
    · cases op <;> decide

/-- A row of operands in brackets, which associate to the left. -/
theorem chain {op : BinaryOp} (hop : op.level ≠ .comparison) {sources : List String}
    {es : List Expression} (h : IsText op.level s e)
    (hes : List.Forall₂ (IsText op.operandLevel) sources es) :
  IsText .atom (Operator.joined op (s :: sources)) (es.foldl (.binary op) e)
  := by
  induction hes generalizing s e with
  | nil =>
    rw [Operator.joined, String.intercalate_singleton]
    exact group h
  | @cons s' e' sources es h' hes ih =>
    have hjoined : Operator.joined op (s :: s' :: sources)
        = Operator.joined op ((s ++ (" " ++ op.symbol ++ " ") ++ s') :: sources) := by
      rw [Operator.joined, Operator.joined, String.intercalate_cons_cons,
        String.intercalate_cons_append]
    rw [hjoined]
    exact ih (operation h h' hop)

/-- A choice. -/
theorem choose {test conseq alt : String} {t c a : Expression} (htest : IsText .inversion test t)
    (hconseq : IsText .inversion conseq c) (halt : IsText .expression alt a) :
  IsText .atom ("(" ++ conseq ++ " if " ++ test ++ " else " ++ alt ++ ")") (.choose t c a)
  := by
  obtain ⟨ts, htest, htest'⟩ := htest
  obtain ⟨us, hconseq, hconseq'⟩ := hconseq
  obtain ⟨vs, halt, halt'⟩ := halt
  have hif : Separates " if ".toList [.choice] :=
    Separates.word (show Text.isIdentifier "if".toList = true by decide +kernel) rfl
  have helse : Separates " else ".toList [.otherwise] :=
    Separates.word (show Text.isIdentifier "else".toList = true by decide +kernel) rfl
  have hinner : IsText .expression (conseq ++ " if " ++ test ++ " else " ++ alt)
      (.choose t c a) := by
    refine ⟨_, ?_, .choose hconseq' htest' halt'⟩
    simp only [String.toList_append, List.append_assoc]
    exact hconseq.append hif (htest.append helse halt)
  simpa only [String.append_assoc] using hinner.group

/-- A function in brackets. -/
theorem lambda (params : List String) {body : String} {e : Expression}
    (h : IsText .expression body e) :
  IsText .atom (lambdaText params body) (.lambda (params.map mangle) e)
  := by
  obtain ⟨ts, hlexes, hderives⟩ := h
  have hword : Lexes "lambda".toList [.function] := lexes_word (by decide +kernel) rfl
  have hderives' := Derives.lambda (params.map mangle) hderives
  unfold lambdaText
  split
  · rename_i hempty
    obtain rfl := List.isEmpty_iff.mp hempty
    have hinner : IsText .expression ("lambda: " ++ body) (.lambda [] e) := by
      refine ⟨_, ?_, hderives'⟩
      rw [String.toList_append]
      exact hword.append .colon hlexes
    have hopening : "(lambda: " = "(" ++ "lambda: " := rfl
    have hgroup := hinner.group
    rwa [← String.append_assoc, ← hopening] at hgroup
  · have hnames : Lexes (paramsText params).toList
        (commas ((params.map mangle).map fun p => [.name p])) := by
      apply lexes_intercalate
      rw [List.forall₂_map_right_iff, List.forall₂_map_right_iff, List.forall₂_map_left_iff]
      apply List.forall₂_same.mpr
      intro x _
      exact lexes_word (isPlain_mangle x).1 (wordToken?_of_notMem (isPlain_mangle x).2)
    have hinner : IsText .expression ("lambda " ++ paramsText params ++ ": " ++ body)
        (.lambda (params.map mangle) e) := by
      refine ⟨_, ?_, hderives'⟩
      simp only [String.toList_append, List.append_assoc]
      exact hword.append .blank (hnames.append .colon hlexes)
    have hopening : "(lambda " = "(" ++ "lambda " := rfl
    have hgroup := hinner.group
    rwa [← String.append_assoc, ← String.append_assoc, ← String.append_assoc, ← hopening] at hgroup

/-- A call. -/
theorem call {s : String} {f : Expression} {sources : List String} {es : List Expression}
    (h : IsText .primary s f) (hes : List.Forall₂ (IsText .expression) sources es) :
  IsText .primary (s ++ "(" ++ ", ".intercalate sources ++ ")") (.call f es)
  := by
  obtain ⟨args, hsources, rfl, hargs⟩ : ∃ args : List (List Token × Expression),
      List.Forall₂ (fun s ts => Lexes s.toList ts) sources (args.map Prod.fst)
        ∧ args.map Prod.snd = es ∧ ∀ a ∈ args, Derives .expression a.1 a.2 := by
    induction hes with
    | nil => exact ⟨[], .nil, rfl, by simp⟩
    | @cons s e sources es hs hes ih =>
      obtain ⟨ts, hlexes, hderives⟩ := hs
      obtain ⟨args, hsources, rfl, hargs⟩ := ih
      exact ⟨(ts, e) :: args, .cons hlexes hsources, rfl,
        List.forall_mem_cons.mpr ⟨hderives, hargs⟩⟩
  obtain ⟨ts, hlexes, hderives⟩ := h
  refine ⟨_, ?_, .call args hderives hargs⟩
  simp only [String.toList_append, List.append_assoc]
  exact hlexes.append .opening ((lexes_intercalate hsources).close .closing)

/-- Floats that are not finite have names of small letters, and perhaps a sign. -/
theorem floatText_mem {x : Float} (hx : Binary64.isFinite x = false) :
  Number.floatText x ∈ ["nan", "inf", "-inf"]
  := by
  unfold Number.floatText
  rw [hx]
  cases x.isNaN <;> cases Binary64.isNegative x <;> simp

/-- The call that a float without a numeral is written as. -/
theorem float {x : Float} (hx : Binary64.isFinite x = false) :
  IsText .primary ("float(" ++ Text.quoted (Number.floatText x) ++ ")")
    (.call (.name "float") [.text (Number.floatText x)])
  := by
  have hnames : ∀ s ∈ ["nan", "inf", "-inf"], s.toList ≠ []
      ∧ s.toList ⊆ ['a', 'f', 'i', 'n', '-'] := by
    decide +kernel
  have hletters : (['a', 'f', 'i', 'n', '-'].all fun c =>
      decide (Text.escapeChar Text.apostrophe c = [c]
        ∧ (c != Text.apostrophe && c != '\\' && c != '\n') = true)) = true := by
    decide +kernel
  have hletters := fun c hc => of_decide_eq_true (List.all_eq_true.mp hletters c hc)
  obtain ⟨hsome, hmem⟩ := hnames _ (floatText_mem hx)
  have hquoted : (Text.quoted (Number.floatText x)).toList
      = Text.apostrophe :: ((Number.floatText x).toList ++ [Text.apostrophe]) := by
    have hmark : Text.markFor (Number.floatText x).toList = Text.apostrophe := by
      have hcontains : (Number.floatText x).toList.contains Text.apostrophe = false := by
        rw [← Bool.not_eq_true, List.contains_iff_mem]
        intro h
        exact absurd (hmem h) (by decide)
      rw [Text.markFor, hcontains]
      rfl
    unfold Text.quoted
    dsimp only
    rw [hmark, flatMap_eq_self fun c hc => (hletters c (hmem hc)).1, String.toList_ofList]
    rfl
  have htext : IsText .expression (Text.quoted (Number.floatText x))
      (.text (Number.floatText x)) := by
    refine ⟨[.text (Number.floatText x)], ?_, (Derives.text _).up (by decide)⟩
    have hlexes := lexes_text hsome fun c hc => (hletters c (hmem hc)).2
    rwa [String.ofList_toList, ← hquoted] at hlexes
  have hfunction : IsText .primary "float" (.name "float") := by
    refine ⟨[.name "float"], lexes_word (by decide +kernel) ?_, (Derives.name _).up (by decide)⟩
    exact wordToken?_of_notMem (by decide)
  have hcall := hfunction.call (.cons htext .nil)
  rwa [String.intercalate_singleton] at hcall

/-- The numeral of a number without a sign. -/
theorem numeral {s : String} {n : Number} (h : Lexes s.toList [.numeral n]) :
  IsText .factor s (.number n)
  := by
  exact ⟨_, h, (Derives.numeral n).up (by decide)⟩

/-- A literal that can be written hangs together as tightly as one with a sign. -/
theorem literal {n : Number} {s : String} (h : literalText n = .ok s) :
  IsText .factor s (.ofNumber n)
  := by
  cases n with
  | bool b =>
    cases b with
    | false =>
      cases h
      exact numeral (lexes_word (by decide +kernel) rfl)
    | true =>
      cases h
      exact numeral (lexes_word (by decide +kernel) rfl)
  | int n =>
    obtain ⟨hlt, rfl⟩ : n.natAbs < tenTo Number.digitLimit
        ∧ (if n < 0 then "-" else "") ++ Number.natText n.natAbs = s := by
      have hs : literalText (.int n) = Error.ofFault (Number.intText n) >>= .ok := rfl
      rw [hs, Number.intText] at h
      split at h
      · cases h
      · rename_i hlt
        exact ⟨Nat.lt_of_not_le hlt, Except.ok.inj h⟩
    have hnumeral := numeral (lexes_natText hlt)
    rw [Expression.ofNumber]
    by_cases hnegative : n < 0
    · rw [if_pos hnegative, if_pos hnegative]
      exact negate hnumeral
    · rw [if_neg hnegative, if_neg hnegative, String.empty_append]
      rwa [Int.natAbs_of_nonneg (Int.not_lt.mp hnegative)] at hnumeral
  | float x =>
    rw [Expression.ofNumber]
    cases hx : Binary64.isFinite x with
    | false =>
      have hs : literalText (.float x)
          = .ok ("float(" ++ Text.quoted (Number.floatText x) ++ ")") := by
        show Except.ok (if Binary64.isFinite x then _ else _) = _
        rw [hx]
        rfl
      obtain rfl := Except.ok.inj (hs.symm.trans h)
      exact (float hx).up (by decide)
    | true =>
      have hs : literalText (.float x) = .ok (Number.floatText x) := by
        show Except.ok (if Binary64.isFinite x then _ else _) = _
        rw [hx]
        rfl
      obtain rfl := Except.ok.inj (hs.symm.trans h)
      obtain ⟨digits, hdigits, hlexes⟩ := lexes_floatText hx
      have hnumeral := numeral hlexes
      have hsign := Binary64.withSign_isNegative x
      rw [hdigits]
      cases hnegative : Binary64.isNegative x with
      | false =>
        rw [hnegative] at hsign
        rw [hsign] at hnumeral
        exact hnumeral
      | true => exact negate hnumeral

/-- The text of an expression is read as nothing else. -/
theorem reads_iff (h : IsText l s e) :
  Reads s e' ↔ e' = e
  := by
  have hle : l.rank ≤ Level.expression.rank := by
    cases l <;> decide
  obtain ⟨ts, hlexes, hderives⟩ := h.up hle
  have htokens : tokens? s.toList = some ts := by
    have hstops : Stops [] := by
      intro c hc
      contradiction
    have hnil : tokens? [] = some [] := by
      rw [tokens?]
    have h := hlexes.tokens [] [] hstops hnil
    rwa [List.append_nil, List.append_nil] at h
  constructor
  · rintro ⟨us, hus, hderives'⟩
    rw [htokens] at hus
    cases hus
    exact hderives'.unique hderives
  · rintro rfl
    exact ⟨ts, htokens, hderives⟩

end IsText

end Springboard.Grammar
